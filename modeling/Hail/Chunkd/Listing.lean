import Hail.Chunkd.ReadBack
import Hail.Chunkd.SelfCheck

/-!
# What a listing and a scan find

Both walk the directory of a table in the order `readdir` gives, up to the first file they cannot
read. So a listing is complete exactly when no object of the user comes behind such a file.
-/
namespace Hail.Chunkd

open Library

/-! ## The walk as a list -/

/-- The names in a subdirectory that are looked at. -/
def SubEntry.files (de : SubEntry) : List FileName :=
  (de.entries.filter fun name => !isDot name).map fun name => (de.name, name)

/-- The names of all files in the directory of a table. -/
def allFiles (root : List SubEntry) : List FileName :=
  (root.filter fun de => !isDot de.name && de.name.length = prefixLen).flatMap SubEntry.files

/-- The names the walk gives: it skips a subdirectory that cannot be opened. -/
def rootFiles : List SubEntry → List FileName
  | [] => []
  | de :: root =>
    if isDot de.name ∨ de.name.length ≠ prefixLen then rootFiles root
    else if !de.memory then []
    else if !de.opens then rootFiles root
    else de.files ++ rootFiles root

def FsObjLister.files (t : FsObjLister) : List FileName :=
  (match t.sub with
    | none => []
    | some (sub, names) => (names.filter fun name => !isDot name).map fun name => (sub, name)) ++
    rootFiles t.root

theorem nextName_filter (names : List Bytes) :
    match nextName names with
    | none => names.filter (fun name => !isDot name) = []
    | some (name, rest) => names.filter (fun name => !isDot name) =
        name :: rest.filter (fun name => !isDot name) ∧ rest.length < names.length := by
  induction names with
  | nil => rfl
  | cons n names ih =>
    rw [nextName]
    by_cases hdot : isDot n = true
    · rw [if_pos hdot, List.filter_cons_of_neg (by simp [hdot])]
      split at ih
      · exact ih
      · exact ⟨ih.1, Nat.lt_succ_of_lt ih.2⟩
    · rw [if_neg hdot, List.filter_cons_of_pos (by simp [hdot])]
      exact ⟨rfl, Nat.lt_succ_self _⟩

/-- The next name is the first of those left. -/
def IsNext (files : List FileName) (size : Nat) : Option (FileName × FsObjLister) → Prop
  | none => files = []
  | some (fn, t) => files = fn :: t.files ∧ t.size < size

theorem IsNext.mono {files : List FileName} {n m : Nat} {o : Option (FileName × FsObjLister)}
    (h : IsNext files n o) (hle : n ≤ m) : IsNext files m o := by
  cases o with
  | none => exact h
  | some p => exact ⟨h.1, h.2.trans_le hle⟩

theorem nextSub_files (root : List SubEntry) :
    IsNext (rootFiles root) ((root.map fun de => de.entries.length).sum) (nextSub root) := by
  induction root with
  | nil => rfl
  | cons de root ih =>
    have hskip : IsNext (rootFiles root) ((de :: root).map fun de => de.entries.length).sum
        (nextSub root) := by
      refine ih.mono ?_
      rw [List.map_cons, List.sum_cons]
      omega
    rw [nextSub, rootFiles]
    split
    · exact hskip
    · split
      · rfl
      · split
        · exact hskip
        · have hname := nextName_filter de.entries
          cases hn : nextName de.entries with
          | none =>
            rw [hn] at hname
            simpa only [SubEntry.files, hname, List.map_nil, List.nil_append] using hskip
          | some p =>
            obtain ⟨name, names⟩ := p
            rw [hn] at hname
            refine ⟨?_, ?_⟩
            · simp only [SubEntry.files, hname.1, FsObjLister.files, List.map_cons, List.cons_append]
            · simp only [FsObjLister.size, List.map_cons, List.sum_cons]
              have := hname.2
              omega

theorem fsListObjsNext_files (t : FsObjLister) : IsNext t.files t.size (fsListObjsNext t) := by
  have hroot := nextSub_files t.root
  obtain ⟨root, sub⟩ := t
  cases sub with
  | none => exact hroot
  | some p =>
    obtain ⟨sub, names⟩ := p
    have hname := nextName_filter names
    simp only [fsListObjsNext]
    cases hn : nextName names with
    | none =>
      rw [hn] at hname
      simp only [FsObjLister.files, hname, List.map_nil, List.nil_append]
      refine hroot.mono ?_
      simp only [FsObjLister.size]
      omega
    | some q =>
      obtain ⟨name, rest⟩ := q
      rw [hn] at hname
      refine ⟨?_, ?_⟩
      · simp only [FsObjLister.files, hname.1, List.map_cons, List.cons_append]
      · simp only [FsObjLister.size]
        have := hname.2
        omega

/-- A loop over a list whose body may break. -/
def foldWhile {α σ : Type} (body : α → σ → σ × Bool) : List α → σ → σ
  | [], s => s
  | a :: as, s =>
    match body a s with
    | (s, true) => foldWhile body as s
    | (s, false) => s

theorem listerLoop_eq {σ : Type} (body : FileName → σ → σ × Bool) {fuel : Nat} {t : FsObjLister}
    (h : t.size < fuel) (s : σ) : listerLoop body fuel t s = foldWhile body t.files s := by
  induction fuel generalizing t s with
  | zero => omega
  | succ fuel ih =>
    have hnext := fsListObjsNext_files t
    rw [listerLoop]
    cases hn : fsListObjsNext t with
    | none =>
      rw [hn] at hnext
      rw [show t.files = [] from hnext]
      rfl
    | some p =>
      obtain ⟨fn, t'⟩ := p
      rw [hn] at hnext
      obtain ⟨hfiles, hsize⟩ := hnext
      simp only [hfiles, foldWhile]
      obtain ⟨s', go⟩ := body fn s
      cases go with
      | true => exact ih (by omega) s'
      | false => rfl

/-- The files the walk reaches. -/
def ListCalls.files (c : ListCalls) : List FileName := if !c.opens then [] else c.lister.files

/-! ## The two loops -/

/-- The loop of `fs_list_objs` goes on after a file. -/
def listGoes (c : ListCalls) (fs : Vol) (tableId : Nat) (user : Bytes) (fn : FileName) : Bool :=
  !c.nameFails fn &&
    match fsObjHdrRead fs (c.hdrFails fn) tableId fn with
    | none => false
    | some info => cstr user ≠ info.owner || !c.entryFails fn

/-- The entry made for a file of the user. -/
def listEntry (c : ListCalls) (fs : Vol) (tableId : Nat) (user : Bytes) (fn : FileName) :
    Option VolumeEntry :=
  match fsObjHdrRead fs (c.hdrFails fn) tableId fn with
  | none => none
  | some info => if cstr user = info.owner then some (info.entry fn) else none

theorem fsListObjs_eq (c : ListCalls) (fs : Vol) (tableId : Nat) (user : Bytes) :
    fsListObjs c fs tableId user =
      (c.files.takeWhile (listGoes c fs tableId user)).filterMap (listEntry c fs tableId user) := by
  have hfold : ∀ (fns : List FileName) (res : List VolumeEntry),
      foldWhile (listBody c fs tableId user) fns res = res ++
        (fns.takeWhile (listGoes c fs tableId user)).filterMap (listEntry c fs tableId user) := by
    intro fns
    induction fns with
    | nil => intro res; simp [foldWhile]
    | cons fn fns ih =>
      intro res
      rw [foldWhile, listBody]
      by_cases hname : c.nameFails fn = true
      · simp [hname, listGoes]
      · rw [if_neg hname]
        cases hread : fsObjHdrRead fs (c.hdrFails fn) tableId fn with
        | none => simp [hread, listGoes]
        | some info =>
          by_cases howner : cstr user = info.owner
          · by_cases hentry : c.entryFails fn = true
            · simp [hread, howner, hentry, hname, listGoes]
            · simp [hread, howner, hentry, hname, listGoes, listEntry, ih]
          · simp [hread, howner, hname, listGoes, listEntry, ih]
  rw [fsListObjs, ListCalls.files]
  split
  · rfl
  · rw [listerLoop_eq _ (Nat.lt_succ_self _), hfold, List.nil_append]

/-- The scan goes on to check a file. -/
def chkGoes (c : ListCalls) (k : FileName → ChkCalls) (fs : Vol) (cache : Objcache) (tableId : Nat)
    (fn : FileName) : Bool :=
  !c.nameFails fn &&
    match fsObjHdrRead fs (c.hdrFails fn) tableId fn with
    | none => false
    | some info => (objcacheGet (k fn).cacheFails cache info.key false).isSome

/-- Taking a file away changes nothing about the others. -/
theorem fsObjHdrRead_disable {fs : Vol} {tableId : Nat} {fn fn' : FileName} (hne : fn' ≠ fn)
    (fails fails' : Bool) :
    fsObjHdrRead (fsObjDisable fs fails tableId fn) fails' tableId fn' =
      fsObjHdrRead fs fails' tableId fn' := by
  unfold fsObjDisable
  cases hp : fs.named tableId fn with
  | none => rfl
  | some p =>
    have hpfn : p.fileName = fn := by
      have := List.find?_some hp
      simp only [decide_eq_true_eq] at this
      exact this.2
    dsimp only
    split
    · rfl
    · have hnamed : Vol.named (fs.unlink p) tableId fn' = fs.named tableId fn' := by
        simp only [Vol.named, FileSys.unlink, Table.del, Table.filter, List.find?_map, List.find?_filter]
        congr 2
        funext x
        by_cases hx : x.1 = p
        · simp [hx, hpfn, hne.symm]
        · simp [hx]
      rw [fsObjHdrRead, fsObjHdrRead, hnamed]
      cases hq : fs.named tableId fn' with
      | none => rfl
      | some q =>
        have hqfn : q.fileName = fn' := by
          have := List.find?_some hq
          simp only [decide_eq_true_eq] at this
          exact this.2
        have hqp : q ≠ p := by
          rintro rfl
          exact hne (hqfn.symm.trans hpfn)
        have hlook : (fs.unlink p).lookup q = fs.lookup q := by
          simp only [FileSys.lookup, FileSys.unlink, Table.get_del, if_neg hqp]
        rw [Option.bind_some, Option.bind_some, hlook]
        rfl

/-- A round of the scan that goes on leaves the cache, and changes no other file. -/
theorem chkBody_step (e : Env) (c : ListCalls) (k : FileName → ChkCalls) (tableId : Nat)
    (fn : FileName) (fs : Vol) (cache : Objcache) (tls : ChkTls) :
    (chkGoes c k fs cache tableId fn = false →
      (chkBody e c k tableId fn (fs, cache, tls)).1.2.2.visited = tls.visited ∧
        (chkBody e c k tableId fn (fs, cache, tls)).2 = false) ∧
    (chkGoes c k fs cache tableId fn = true →
      ∃ fs' tls', chkBody e c k tableId fn (fs, cache, tls) = ((fs', cache, tls'), true) ∧
        tls'.visited = tls.visited ++ [fn] ∧
        (fs' = fs ∨ fs' = fsObjDisable fs (k fn).disableFails tableId fn)) := by
  unfold chkGoes chkBody
  by_cases hname : c.nameFails fn = true
  · simp [hname]
  · simp only [if_neg hname, Bool.not_eq_true] at hname ⊢
    rw [hname]
    cases fsObjHdrRead fs (c.hdrFails fn) tableId fn with
    | none => simp
    | some info =>
      dsimp only
      cases hget : objcacheGet (k fn).cacheFails cache info.key false with
      | none => simp
      | some p =>
        obtain ⟨cep, cache'⟩ := p
        have hput := objcachePut_get hget
        refine ⟨fun h => by simp at h, fun _ => ?_⟩
        dsimp only
        split
        · exact ⟨_, _, by rw [hput], rfl, .inl rfl⟩
        · split
          · exact ⟨_, _, by rw [hput], rfl, .inl rfl⟩
          · split
            · exact ⟨_, _, by rw [hput], rfl, .inr rfl⟩
            · exact ⟨_, _, by rw [hput], rfl, .inl rfl⟩

theorem takeWhile_congr {α : Type} {p q : α → Bool} {l : List α} (h : ∀ a ∈ l, p a = q a) :
    l.takeWhile p = l.takeWhile q := by
  induction l with
  | nil => rfl
  | cons a l ih =>
    rw [List.takeWhile_cons, List.takeWhile_cons, h a List.mem_cons_self,
      ih fun b hb => h b (List.mem_cons_of_mem a hb)]

theorem chkGoes_congr {c : ListCalls} {k : FileName → ChkCalls} {tableId : Nat} {fn : FileName}
    {fs fs' : Vol} {cache : Objcache}
    (h : fsObjHdrRead fs' (c.hdrFails fn) tableId fn = fsObjHdrRead fs (c.hdrFails fn) tableId fn) :
    chkGoes c k fs' cache tableId fn = chkGoes c k fs cache tableId fn := by
  rw [chkGoes, chkGoes, h]

/-- The scan checks the files up to the first it cannot read. -/
theorem foldWhile_chkBody (e : Env) {c : ListCalls} {k : FileName → ChkCalls} {tableId : Nat}
    {fs : Vol} {cache : Objcache} {fns : List FileName} (hnodup : fns.Nodup) (tls : ChkTls) :
    (foldWhile (chkBody e c k tableId) fns (fs, cache, tls)).2.2.visited =
      tls.visited ++ fns.takeWhile (chkGoes c k fs cache tableId) := by
  induction fns generalizing fs tls with
  | nil => simp [foldWhile]
  | cons fn fns ih =>
    obtain ⟨hfn, hfns⟩ := List.nodup_cons.mp hnodup
    obtain ⟨hstop, hgo⟩ := chkBody_step e c k tableId fn fs cache tls
    rw [foldWhile]
    cases hg : chkGoes c k fs cache tableId fn with
    | false =>
      obtain ⟨hvis, hend⟩ := hstop hg
      generalize chkBody e c k tableId fn (fs, cache, tls) = r at hvis hend
      obtain ⟨s, go⟩ := r
      subst hend
      simpa [hg] using hvis
    | true =>
      obtain ⟨fs', tls', heq, hvis, hfs⟩ := hgo hg
      have hread : ∀ fn' ∈ fns, chkGoes c k fs' cache tableId fn' = chkGoes c k fs cache tableId fn' := by
        intro fn' hfn'
        refine chkGoes_congr ?_
        rcases hfs with rfl | rfl
        · rfl
        · exact fsObjHdrRead_disable (ne_of_mem_of_not_mem hfn' hfn) _ _
      simp only [heq, ih hfns, hvis, List.takeWhile_cons, hg, if_true, List.append_assoc,
        List.singleton_append, List.append_cancel_left_eq, List.cons.injEq, true_and]
      exact takeWhile_congr hread

theorem chkListObjs_visited (e : Env) {c : ListCalls} {k : FileName → ChkCalls} {tableId : Nat}
    {fs : Vol} {cache : Objcache} (hnodup : c.files.Nodup) :
    (chkListObjs e c k fs cache tableId).2.2.visited =
      c.files.takeWhile (chkGoes c k fs cache tableId) := by
  unfold chkListObjs
  unfold ListCalls.files at hnodup ⊢
  split
  · rfl
  · next hopen =>
    rw [if_neg hopen] at hnodup
    rw [listerLoop_eq _ (Nat.lt_succ_self _), foldWhile_chkBody e hnodup]
    rfl

/-! ## Objects in a table -/

/-- The file holds an object as `fs_obj_write_commit` leaves it. -/
structure Committed (e : Env) (fs : Vol) (p : Path) (hdr : BeFsObjHdr) (key d : Bytes) : Prop where
  name : p.digest = e.sha256 key
  valid : keyValid key = true
  sized : hdr.Sized
  magic : hdr.magic = beFsObjMagic
  keyLen : hdr.keyLen = key.length
  valueLen : hdr.valueLen = d.length
  nBlk : hdr.nBlk = fsBlkCount d.length
  file : ∃ ino tbl, fs.lookup p = some ino ∧ tbl.length = csumBytes hdr.nBlk ∧
    (fs.file ino).data = hdr.encode ++ key ++ tbl ++ d ∧ (fs.file ino).data.length < 2 ^ 63

/-- The entry of a listing for a committed object. -/
def IsEntry (fs : Vol) (p : Path) (hdr : BeFsObjHdr) (key d : Bytes) (ve : VolumeEntry) : Prop :=
  ∃ ino, fs.lookup p = some ino ∧
    ve = ⟨p.fileName, d.length, (fs.file ino).mtime, key, hexstr hdr.hash, cstr hdr.owner⟩

/-- `readdir` gives the names of the files of the table, each once, in some order. -/
def ListCalls.Reads (c : ListCalls) (fs : Vol) (tableId : Nat) : Prop :=
  (allFiles c.root).Perm
    (((fs.dir.rows.map Prod.fst).filter fun p => p.tableId = tableId).map Path.fileName)

instance (c : ListCalls) (fs : Vol) (tableId : Nat) : Decidable (c.Reads fs tableId) :=
  inferInstanceAs (Decidable (List.Perm _ _))

theorem rootFiles_sublist (root : List SubEntry) : (rootFiles root).Sublist (allFiles root) := by
  induction root with
  | nil => exact .slnil
  | cons de root ih =>
    have hall : allFiles (de :: root) =
        (if isDot de.name ∨ de.name.length ≠ prefixLen then [] else de.files) ++ allFiles root := by
      unfold allFiles
      by_cases h : isDot de.name = true ∨ de.name.length ≠ prefixLen
      · rw [if_pos h, List.filter_cons_of_neg, List.nil_append]
        rcases h with h | h <;> simp [h]
      · rw [if_neg h, List.filter_cons_of_pos, List.flatMap_cons]
        simpa [not_or] using h
    rw [hall, rootFiles]
    split
    · exact ih
    · split
      · exact List.nil_sublist _
      · split
        · exact ih.trans (List.sublist_append_right _ _)
        · exact (List.Sublist.refl _).append ih

theorem files_sublist (c : ListCalls) : c.files.Sublist (allFiles c.root) := by
  unfold ListCalls.files
  split
  · exact List.nil_sublist _
  · exact rootFiles_sublist c.root

theorem hexstr_injective : Function.Injective hexstr := by
  have hdigit : ∀ i < 16, ∀ j < 16, hexDigit i = hexDigit j → i = j := by decide
  intro as
  induction as with
  | nil =>
    intro bs h
    cases bs with
    | nil => rfl
    | cons b bs => simp [hexstr] at h
  | cons a as ih =>
    intro bs h
    cases bs with
    | nil => simp [hexstr] at h
    | cons b bs =>
      simp only [hexstr, List.flatMap_cons, List.cons_append, List.nil_append, List.cons.injEq] at h
      obtain ⟨hhi, hlo, hrest⟩ := h
      have ha := a.toNat_lt
      have hb := b.toNat_lt
      have h1 := hdigit _ (by omega) _ (by omega) hhi
      have h2 := hdigit _ (by omega) _ (by omega) hlo
      have hab : a = b := UInt8.toNat_inj.mp (by omega)
      rw [hab, ih hrest]

theorem fileName_injective {p q : Path} (ht : p.tableId = q.tableId) (h : p.fileName = q.fileName) :
    p = q := by
  obtain ⟨hpre, hpost⟩ := Prod.mk.inj h
  have hhex : hexstr p.digest = hexstr q.digest := by
    rw [← List.take_append_drop prefixLen (hexstr p.digest), hpre, hpost, List.take_append_drop]
  obtain ⟨tp, dp⟩ := p
  obtain ⟨tq, dq⟩ := q
  simp only at ht hhex
  rw [ht, hexstr_injective hhex]

section

variable {e : Env} {c : ListCalls} {fs : Vol} {tableId : Nat}

theorem ListCalls.Reads.nodup (h : c.Reads fs tableId) : c.files.Nodup := by
  refine List.Nodup.sublist (files_sublist c) ?_
  rw [List.Perm.nodup_iff h]
  refine List.Nodup.map_on ?_ (fs.dir.nodup.filter _)
  intro p hp q hq hpq
  have hp' := (List.mem_filter.mp hp).2
  have hq' := (List.mem_filter.mp hq).2
  simp only [decide_eq_true_eq] at hp' hq'
  exact fileName_injective (hp'.trans hq'.symm) hpq

theorem mem_dir_iff {fs : Vol} {p : Path} : p ∈ fs.dir.rows.map Prod.fst ↔ ∃ ino, fs.lookup p = some ino := by
  rw [List.mem_map]
  constructor
  · rintro ⟨x, hx, rfl⟩
    exact ⟨x.2, by rw [FileSys.lookup, Table.mem_get.mpr ⟨hx, rfl⟩]; rfl⟩
  · rintro ⟨ino, h⟩
    obtain ⟨x, hx, -⟩ := Option.map_eq_some_iff.mp h
    exact ⟨x, Table.mem_get.mp hx⟩

/-- A file of the table is found by its name. -/
theorem named_fileName {p : Path} {ino : Nat} (h : fs.lookup p = some ino) (ht : p.tableId = tableId) :
    fs.named tableId p.fileName = some p := by
  unfold Vol.named
  cases hf : (fs.dir.rows.map Prod.fst).find?
      (fun q => decide (q.tableId = tableId ∧ q.fileName = p.fileName)) with
  | none =>
    have := List.find?_eq_none.mp hf p (mem_dir_iff.mpr ⟨ino, h⟩)
    simp [ht] at this
  | some q =>
    have hq := List.find?_some hf
    simp only [decide_eq_true_eq] at hq
    rw [fileName_injective (hq.1.trans ht.symm) hq.2]

theorem hdrInfo_committed {p : Path} {hdr : BeFsObjHdr} {key d : Bytes} {ino : Nat}
    (h : Committed e fs p hdr key d) (hlook : fs.lookup p = some ino) :
    hdrInfo (fs.file ino) = some
      { owner := cstr hdr.owner, hash := hdr.hash, key, csumlen := csumBytes hdr.nBlk
        size := d.length, mtime := (fs.file ino).mtime } := by
  obtain ⟨ino', tbl, hlook', htbl, hfile, hsmall⟩ := h.file
  obtain rfl : ino = ino' := by
    rw [hlook] at hlook'
    exact Option.some.inj hlook'
  have hlen := encode_length h.sized
  have hkey : 1 ≤ key.length ∧ key.length ≤ chdKeySz := by simpa [keyValid] using h.valid
  have htake : (fs.file ino).data.take beFsObjHdrSz = hdr.encode := by
    rw [hfile, List.append_assoc, List.append_assoc, List.take_left' hlen]
  have hrest : ((fs.file ino).data.drop beFsObjHdrSz).take key.length = key := by
    rw [hfile, List.append_assoc, List.append_assoc, List.drop_left' hlen, List.take_left]
  have htotal : (fs.file ino).data.length = beFsObjHdrSz + key.length + tbl.length + d.length := by
    rw [hfile, List.length_append, List.length_append, List.length_append, hlen]
  unfold hdrInfo
  dsimp only
  rw [htake, BeFsObjHdr.ofBytes_encode h.sized, h.keyLen, hrest, h.valueLen,
    if_neg (by omega), if_neg (by simp [h.magic]), if_neg (by omega), if_neg ?_, if_neg (by simp)]
  omega

theorem hdrRead_committed {p : Path} {hdr : BeFsObjHdr} {key d : Bytes} {ino : Nat}
    (h : Committed e fs p hdr key d) (hlook : fs.lookup p = some ino) (ht : p.tableId = tableId) :
    fsObjHdrRead fs false tableId p.fileName = some
      { owner := cstr hdr.owner, hash := hdr.hash, key, csumlen := csumBytes hdr.nBlk
        size := d.length, mtime := (fs.file ino).mtime } := by
  unfold fsObjHdrRead
  simp only [named_fileName hlook ht, Option.bind_some, hlook, Bool.false_eq_true, if_false]
  exact hdrInfo_committed h hlook

/-- A file whose header the listing reads is one whose header can be read. -/
theorem hdrRead_of_goes {user : Bytes} {fn : FileName} (h : listGoes c fs tableId user fn = true) :
    ∃ info, fsObjHdrRead fs (c.hdrFails fn) tableId fn = some info := by
  cases hread : fsObjHdrRead fs (c.hdrFails fn) tableId fn with
  | none => simp [listGoes, hread] at h
  | some info => exact ⟨info, rfl⟩

theorem hdrRead_false {fails : Bool} {fn : FileName} {info : HdrInfo}
    (h : fsObjHdrRead fs fails tableId fn = some info) :
    fsObjHdrRead fs false tableId fn = some info := by
  unfold fsObjHdrRead at h ⊢
  generalize (fs.named tableId fn).bind fs.lookup = found at h ⊢
  cases found with
  | none => cases h
  | some ino =>
    dsimp only at h ⊢
    split at h
    · cases h
    · rwa [if_neg (by decide)]

/-- The listing of the table has an entry for each committed object of the user, and no other. -/
def ListingExact (e : Env) (c : ListCalls) (fs : Vol) (tableId : Nat) (user : Bytes) : Prop :=
  (fsListObjs c fs tableId user).Nodup ∧
    ∀ ve, ve ∈ fsListObjs c fs tableId user ↔
      ∃ p hdr key d, Committed e fs p hdr key d ∧ p.tableId = tableId ∧
        cstr hdr.owner = cstr user ∧ IsEntry fs p hdr key d ve

/-- The scan of the table checks every committed object. -/
def ScanExact (e : Env) (c : ListCalls) (k : FileName → ChkCalls) (fs : Vol) (cache : Objcache)
    (tableId : Nat) : Prop :=
  ∀ p hdr key d, Committed e fs p hdr key d → p.tableId = tableId →
    p.fileName ∈ (chkListObjs e c k fs cache tableId).2.2.visited

/-- No committed object comes behind a file at which the walk ends, and the files before it that
have a header of the user hold committed objects. -/
structure WalkOk (e : Env) (c : ListCalls) (k : FileName → ChkCalls) (fs : Vol) (cache : Objcache)
    (tableId : Nat) (user : Bytes) : Prop where
  lists : ∀ p hdr key d, Committed e fs p hdr key d → p.tableId = tableId →
    cstr hdr.owner = cstr user → p.fileName ∈ c.files.takeWhile (listGoes c fs tableId user)
  scans : ∀ p hdr key d, Committed e fs p hdr key d → p.tableId = tableId →
    p.fileName ∈ c.files.takeWhile (chkGoes c k fs cache tableId)
  accepts : ∀ fn ∈ c.files.takeWhile (listGoes c fs tableId user), ∀ info,
    fsObjHdrRead fs (c.hdrFails fn) tableId fn = some info → info.owner = cstr user →
      ∃ p hdr key d, Committed e fs p hdr key d ∧ p.tableId = tableId ∧ p.fileName = fn

/-- The entry of a committed object that the listing reaches. -/
theorem listEntry_committed {p : Path} {hdr : BeFsObjHdr} {key d user : Bytes} {ve : VolumeEntry}
    (h : Committed e fs p hdr key d) (ht : p.tableId = tableId)
    (hgo : listGoes c fs tableId user p.fileName = true) :
    listEntry c fs tableId user p.fileName = some ve ↔
      cstr hdr.owner = cstr user ∧ IsEntry fs p hdr key d ve := by
  obtain ⟨ino, -, hlook, -⟩ := h.file
  obtain ⟨info, hread⟩ := hdrRead_of_goes hgo
  have hinfo := (hdrRead_false hread).symm.trans (hdrRead_committed h hlook ht)
  obtain rfl := Option.some.inj hinfo
  simp only [listEntry, hread, IsEntry, hlook, Option.some.injEq, exists_eq_left', HdrInfo.entry]
  constructor
  · intro hve
    split at hve
    · next howner => exact ⟨howner.symm, (Option.some.inj hve).symm⟩
    · cases hve
  · rintro ⟨howner, rfl⟩
    rw [if_pos howner.symm]

/-- The listing and the scan of a table are complete exactly when the walk does not end before an
object, and reads no damaged file of the user. -/
theorem listing_scan_iff (e : Env) (c : ListCalls) (k : FileName → ChkCalls) (fs : Vol)
    (cache : Objcache) (tableId : Nat) (user : Bytes) (hreads : c.Reads fs tableId) :
    ListingExact e c fs tableId user ∧ ScanExact e c k fs cache tableId ↔
      WalkOk e c k fs cache tableId user := by
  unfold ListingExact ScanExact
  rw [fsListObjs_eq, chkListObjs_visited e hreads.nodup]
  have hfile : ∀ {fn ve}, listEntry c fs tableId user fn = some ve → ve.file = fn := by
    intro fn ve h
    unfold listEntry at h
    split at h
    · cases h
    · split at h
      · rw [← Option.some.inj h]
        rfl
      · cases h
  constructor
  · rintro ⟨⟨-, hiff⟩, hscan⟩
    refine ⟨fun p hdr key d h ht howner => ?_, hscan, fun fn hfn info hread howner => ?_⟩
    · obtain ⟨ino, -, hlook, -⟩ := h.file
      obtain ⟨fn, hfn, hve⟩ := List.mem_filterMap.mp
        ((hiff _).mpr ⟨p, hdr, key, d, h, ht, howner, ino, hlook, rfl⟩)
      rw [show p.fileName = fn from hfile hve]
      exact hfn
    · have hve : listEntry c fs tableId user fn = some (info.entry fn) := by
        simp [listEntry, hread, howner]
      obtain ⟨p, hdr, key, d, h, ht, -, ino, -, heq⟩ :=
        (hiff _).mp (List.mem_filterMap.mpr ⟨fn, hfn, hve⟩)
      exact ⟨p, hdr, key, d, h, ht, (congrArg VolumeEntry.file heq).symm⟩
  · intro h
    refine ⟨⟨?_, fun ve => ⟨fun hve => ?_, ?_⟩⟩, h.scans⟩
    · refine List.Nodup.filterMap ?_ (hreads.nodup.sublist (List.takeWhile_sublist _))
      intro fn fn' ve hve hve'
      exact (hfile hve).symm.trans (hfile hve')
    · obtain ⟨fn, hfn, hentry⟩ := List.mem_filterMap.mp hve
      have hgo := List.mem_takeWhile_imp hfn
      obtain ⟨info, hread⟩ := hdrRead_of_goes hgo
      have howner : info.owner = cstr user := by
        by_contra hne
        simp [listEntry, hread, Ne.symm hne] at hentry
      obtain ⟨p, hdr, key, d, hp, ht, rfl⟩ := h.accepts fn hfn info hread howner
      obtain ⟨ho, hve⟩ := (listEntry_committed hp ht hgo).mp hentry
      exact ⟨p, hdr, key, d, hp, ht, ho, hve⟩
    · rintro ⟨p, hdr, key, d, hp, ht, howner, hve⟩
      have hfn := h.lists p hdr key d hp ht howner
      exact List.mem_filterMap.mpr ⟨p.fileName, hfn,
        (listEntry_committed hp ht (List.mem_takeWhile_imp hfn)).mpr ⟨howner, hve⟩⟩

end

/-- The string `abc` stored by `u` under the key `k`. -/
def abcStored : Vol :=
  let fs := (fsObjNew .sample .calm emptyVol 1 [0x6b] 3).2
  let obj := FsObj.created .calm 0 ⟨1, Env.sample.sha256 [0x6b]⟩ [0x6b] 3
  let (_, fs, obj) := fsObjWrite .sample 0 (fun _ => some chunkBlkSz) fs obj abc
  (fsObjWriteCommit .sample .calm fs obj [0x75] (Env.sample.sha1 abc) true).2.1

/-- The same while an upload to the key `z` has just begun. -/
def abcUploading : Vol := (fsObjNew .sample .calm abcStored 1 [0x7a] 3).2

def kFile : FileName := Path.fileName ⟨1, Env.sample.sha256 [0x6b]⟩
def zFile : FileName := Path.fileName ⟨1, Env.sample.sha256 [0x7a]⟩

/-- A walk in which no call fails. -/
def calmWalk (files : List FileName) : ListCalls where
  opens := true
  root := files.map fun fn => ⟨fn.1, true, true, [fn.2]⟩
  nameFails _ := false
  hdrFails _ := false
  entryFails _ := false

def calmChk (_ : FileName) : ChkCalls := ⟨.calm, false, false⟩

theorem abc_committed : Committed .sample abcUploading ⟨1, Env.sample.sha256 [0x6b]⟩ abcHdr [0x6b] abc where
  name := rfl
  valid := by decide
  sized := ⟨by decide, by decide, by decide, by decide, by decide +kernel, by decide +kernel⟩
  magic := rfl
  keyLen := rfl
  valueLen := rfl
  nBlk := rfl
  file := ⟨0, Env.sample.sha1 abc, by decide +kernel, by decide +kernel, by decide +kernel,
    by decide +kernel⟩

theorem listing_scan_iff_abc :
    ListingExact .sample (calmWalk [kFile, zFile]) abcUploading 1 [0x75] ∧
        ScanExact .sample (calmWalk [kFile, zFile]) calmChk abcUploading (fun _ => none) 1 ↔
      WalkOk .sample (calmWalk [kFile, zFile]) calmChk abcUploading (fun _ => none) 1 [0x75] :=
  listing_scan_iff .sample _ calmChk abcUploading (fun _ => none) 1 [0x75] (by decide +kernel)

/-- With the upload first in the directory the object is neither listed nor checked. -/
theorem upload_hides_object :
    (calmWalk [zFile, kFile]).Reads abcUploading 1 ∧
      ¬ ListingExact .sample (calmWalk [zFile, kFile]) abcUploading 1 [0x75] ∧
      ¬ ScanExact .sample (calmWalk [zFile, kFile]) calmChk abcUploading (fun _ => none) 1 := by
  have hlist : fsListObjs (calmWalk [zFile, kFile]) abcUploading 1 [0x75] = [] := by decide +kernel
  have hvis : (chkListObjs .sample (calmWalk [zFile, kFile]) calmChk abcUploading (fun _ => none)
      1).2.2.visited = [] := by decide +kernel
  refine ⟨by decide +kernel, fun h => ?_, fun h => ?_⟩
  · have hmem := (h.2 _).mpr ⟨_, _, _, _, abc_committed, rfl, by decide +kernel, 0, by decide +kernel, rfl⟩
    rw [hlist] at hmem
    cases hmem
  · have hmem := h _ _ _ _ abc_committed rfl
    rw [hvis] at hmem
    cases hmem

end Hail.Chunkd
