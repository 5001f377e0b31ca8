import Hail.Chunkd.Uploads
import Hail.Library.Run

/-!
# A store of whole objects

What the server is for: a table of names, each with a whole object. The files that uploads are writing
are not part of it, so a step of any party stores one object whole, removes one, or does nothing.
-/
namespace Hail.Chunkd

open Library

/-- The name of the file that a connection is writing. -/
def Daemon.upload (d : Daemon) (i : Nat) : Option Path := (d.client i).bind fun cli => cli.upload

/-- Some connection is writing the file of a name. -/
def Daemon.uploads (d : Daemon) (p : Path) : Bool :=
  d.clients.any fun c => (c.bind fun cli => cli.upload) = some p

/-- The objects. -/
def Daemon.objects (d : Daemon) (p : Path) : Option Bytes :=
  if d.uploads p then none else d.srv.fs.content p

/-- What a step does to the objects. -/
inductive Daemon.Effect (e : Env) (d : Daemon) (ev : DaemonEv) (objects : Path → Option Bytes) : Prop
  | same (h : objects = d.objects)
  | stored {i : Nat} {io : Io} {cev : ConnEv} {cli : Client} {data : Bytes}
      (hev : ev = .client i io cev) (hi : d.client i = some cli)
      (habsent : d.objects (cli.path e) = none)
      (hdesc : (storedHdr e cli.keyBytes cli.user data).Describes cli.keyBytes data)
      (h : objects = Function.update d.objects (cli.path e)
        (some (storedFile e cli.keyBytes cli.user data)))
  | removed {i : Nat} {io : Io} {cev : ConnEv} {cli : Client} {bs : Bytes}
      (hev : ev = .client i io cev) (hi : d.client i = some cli)
      (hbs : d.objects (cli.path e) = some bs)
      (howner : cstr cli.user = cstr (BeFsObjHdr.ofBytes (bs.take beFsObjHdrSz)).owner)
      (h : objects = Function.update d.objects (cli.path e) none)
  | disabled {c : ChkCall} {p : Path} (hev : ev = .check c)
      (h : objects = Function.update d.objects p none)

/-- What a step must meet: an object is not too large, the header of a copy is not written in part, and
the self-check takes away no file that is being written. -/
def Daemon.StepMeets (d : Daemon) : DaemonEv → Prop
  | .accept => True
  | .client i io cev => ∀ cli ∈ d.client i, cli.StepMeets io cev
  | .check _ =>
    match d.chk with
    | .bad tableId fn _ => ∀ p ∈ d.srv.fs.named tableId fn, d.uploads p = false
    | _ => True

/-- All clients write files of their own. -/
structure Daemon.Apart (e : Env) (d : Daemon) : Prop where
  clients : ∀ i cli, d.client i = some cli → cli.Stores e d.srv.fs
  distinct : ∀ i j p, d.upload i = some p → d.upload j = some p → i = j

section

variable {e : Env} {d d' : Daemon} {p q : Path}

theorem Daemon.uploads_iff : d.uploads p = true ↔ ∃ i, d.upload i = some p := by
  unfold Daemon.uploads Daemon.upload Daemon.client
  rw [List.any_eq_true]
  constructor
  · rintro ⟨c, hc, hup⟩
    obtain ⟨i, hi⟩ := List.mem_iff_getElem?.mp hc
    refine ⟨i, ?_⟩
    rw [hi, Option.join_some]
    simpa using hup
  · rintro ⟨i, hup⟩
    obtain ⟨cli, hcli, hup⟩ := Option.bind_eq_some_iff.mp hup
    obtain hi := Option.join_eq_some_iff.mp hcli
    exact ⟨some cli, List.mem_of_getElem? hi, by simpa using hup⟩

theorem Daemon.objects_congr (hup : d'.uploads p = d.uploads p)
    (hfs : d'.srv.fs.content p = d.srv.fs.content p) : d'.objects p = d.objects p := by
  unfold Daemon.objects
  rw [hup, hfs]

theorem Daemon.uploads_congr (h : ∀ i, d'.upload i = some p ↔ d.upload i = some p) :
    d'.uploads p = d.uploads p := by
  rw [Bool.eq_iff_iff, Daemon.uploads_iff, Daemon.uploads_iff]
  exact exists_congr h

/-- If nobody but one connection can write a file, its object is what that connection leaves to see. -/
theorem Daemon.objects_shown {i : Nat} (h : ∀ j, j ≠ i → d.upload j ≠ some p) :
    d.objects p = shown d.srv.fs (d.upload i) p := by
  unfold Daemon.objects shown
  by_cases hi : d.upload i = some p
  · rw [if_pos hi, if_pos (Daemon.uploads_iff.mpr ⟨i, hi⟩)]
  · rw [if_neg hi, if_neg]
    rw [Daemon.uploads_iff]
    rintro ⟨j, hj⟩
    by_cases hji : j = i
    · exact hi (hji ▸ hj)
    · exact h j hji hj

theorem Daemon.Apart.opened (h : d.Apart e) {i : Nat} (hup : d.upload i = some p) :
    ∃ bs, d.srv.fs.content p = some bs ∧ Blank bs := by
  obtain ⟨cli, hi, hup⟩ := Option.bind_eq_some_iff.mp hup
  obtain ⟨bo, hbo, hfn⟩ := Option.bind_eq_some_iff.mp hup
  obtain ⟨ino, ho⟩ := (h.clients i cli hi).opened bo hbo p hfn
  exact ⟨_, FileSys.content_of_lookup ho.lookup, ho.blank⟩

theorem Daemon.init_apart (e : Env) (srv : Srv) : (Daemon.init srv).Apart e where
  clients i cli h := by simp [Daemon.init, Daemon.client] at h
  distinct i j p h := by simp [Daemon.init, Daemon.upload, Daemon.client] at h

/-- A step of a connection. -/
theorem Daemon.Apart.client {i : Nat} {io : Io} {cev : ConnEv} {cli : Client} {srv' : Srv}
    {c : Option Client} (h : d.Apart e) (hi : d.client i = some cli)
    (hchange : cli.Change e d.srv.fs srv'.fs (c.bind fun cli => cli.upload))
    (hstores : ∀ cli', c = some cli' → cli'.Stores e srv'.fs) :
    Daemon.Apart e { d with srv := srv', clients := d.clients.set i c } ∧
      d.Effect e (.client i io cev)
        (Daemon.objects { d with srv := srv', clients := d.clients.set i c }) := by
  set d' : Daemon := { d with srv := srv', clients := d.clients.set i c } with hd'
  have hclient : ∀ j, d'.client j = if j = i then c else d.client j := Daemon.client_set hi srv' c
  have hown : d.upload i = cli.upload := by rw [Daemon.upload, hi, Option.bind_some]
  have hown' : d'.upload i = c.bind fun cli => cli.upload := by
    rw [Daemon.upload, hclient, if_pos rfl]
  have hother : ∀ j, j ≠ i → d'.upload j = d.upload j := by
    intro j hj
    rw [Daemon.upload, hclient, if_neg hj, Daemon.upload]
  cases hchange with
  | same hfs hup =>
    have huploads : ∀ j, d'.upload j = d.upload j := by
      intro j
      by_cases hj : j = i
      · rw [hj, hown', hup, hown]
      · exact hother j hj
    refine ⟨⟨fun j cli' hj => ?_, fun j k p hj hk => ?_⟩, .same (funext fun p => ?_)⟩
    · rw [hclient] at hj
      split at hj
      · exact hstores cli' hj
      · change cli'.Stores e srv'.fs
        rw [hfs]
        exact h.clients j cli' hj
    · rw [huploads] at hj hk
      exact h.distinct j k p hj hk
    · refine Daemon.objects_congr (Daemon.uploads_congr fun j => by rw [huploads]) ?_
      change srv'.fs.content p = _
      rw [hfs]
  | @touches q ht =>
    have hfree : ∀ j, j ≠ i → d.upload j ≠ some q := by
      intro j hj hup
      rcases ht.mine with hm | ⟨-, hmarked⟩
      · exact hj (h.distinct j i q hup (hown.trans hm))
      · obtain ⟨bs, hbs, hblank⟩ := h.opened hup
        exact hmarked bs hbs hblank
    have hfree' : ∀ j, j ≠ i → d'.upload j ≠ some q := by
      intro j hj
      rw [hother j hj]
      exact hfree j hj
    have hmine : ∀ p, p ≠ q → d.upload i ≠ some p ∧ d'.upload i ≠ some p := by
      intro p hp
      rw [hown, hown']
      constructor
      · rintro hup
        rcases ht.mine with hm | ⟨hm, -⟩
        · exact hp (Option.some.inj (hup.symm.trans hm))
        · cases hm.symm.trans hup
      · rintro hup
        rcases ht.upload with hm | hm
        · cases hm.symm.trans hup
        · exact hp (Option.some.inj (hup.symm.trans hm))
    have hobjects : d'.objects = Function.update d.objects q
        (shown srv'.fs (c.bind fun cli => cli.upload) q) := by
      refine funext fun p => ?_
      by_cases hp : p = q
      · subst hp
        rw [Function.update_self, Daemon.objects_shown hfree', hown']
      · rw [Function.update_of_ne hp]
        refine Daemon.objects_congr (Daemon.uploads_congr fun j => ?_) (ht.touches.content hp)
        by_cases hj : j = i
        · subst hj
          exact iff_of_false (hmine p hp).2 (hmine p hp).1
        · rw [hother j hj]
    have hbefore : d.objects q = shown d.srv.fs cli.upload q := by
      rw [Daemon.objects_shown hfree, hown]
    refine ⟨⟨fun j cli' hj => ?_, fun j k p hj hk => ?_⟩, ?_⟩
    · rw [hclient] at hj
      split at hj
      · exact hstores cli' hj
      · next hne =>
        refine (h.clients j cli' hj).kept ht.touches fun hup => hfree j hne ?_
        rw [Daemon.upload, hj, Option.bind_some, hup]
    · by_cases hji : j = i
      · by_cases hki : k = i
        · rw [hji, hki]
        · by_cases hp : p = q
          · exact absurd (hp ▸ hk) (hfree' k hki)
          · exact absurd (hji ▸ hj) (hmine p hp).2
      · by_cases hki : k = i
        · by_cases hp : p = q
          · exact absurd (hp ▸ hj) (hfree' j hji)
          · exact absurd (hki ▸ hk) (hmine p hp).2
        · rw [hother j hji] at hj
          rw [hother k hki] at hk
          exact h.distinct j k p hj hk
    · have halters := ht.alters
      rw [← hbefore] at halters
      generalize hv : shown srv'.fs (c.bind fun cli => cli.upload) q = v at halters hobjects
      generalize hu : d.objects q = u at halters
      cases halters with
      | same =>
        refine .same ?_
        rw [hobjects, ← hu, Function.update_eq_self]
      | stored hdesc => exact .stored rfl hi hu hdesc hobjects
      | removed howner => exact .removed rfl hi hu howner hobjects

/-- The self-check changes the volume where it takes a file away. -/
theorem chkStep_fs {c : ChkCall} {srv srv' : Srv} {chk chk' : ChkAt}
    (h : chkStep e c srv chk = some (srv', chk')) :
    srv'.fs = srv.fs ∨ ∃ tableId fn cep p, chk = .bad tableId fn cep ∧
      srv.fs.named tableId fn = some p ∧ srv'.fs = srv.fs.unlink p := by
  unfold chkStep at h
  split at h
  · split at h <;> obtain ⟨rfl, rfl⟩ := Prod.mk.inj (Option.some.inj h) <;> exact .inl rfl
  · split at h
    · cases h
    · obtain ⟨rfl, rfl⟩ := Prod.mk.inj (Option.some.inj h)
      exact .inl rfl
  · split at h <;> obtain ⟨rfl, rfl⟩ := Prod.mk.inj (Option.some.inj h) <;> exact .inl rfl
  · split at h
    · obtain ⟨rfl, rfl⟩ := Prod.mk.inj (Option.some.inj h)
      exact .inl rfl
    · split at h <;> obtain ⟨rfl, rfl⟩ := Prod.mk.inj (Option.some.inj h) <;> exact .inl rfl
  · next tableId fn cep =>
    obtain ⟨rfl, rfl⟩ := Prod.mk.inj (Option.some.inj h)
    cases hp : srv.fs.named tableId fn with
    | none => exact .inl (by simp only [fsObjDisable, hp])
    | some p =>
      by_cases hfails : c.calls.disableFails = true
      · exact .inl (by simp only [fsObjDisable, hp, hfails, if_true])
      · exact .inr ⟨tableId, fn, cep, p, rfl, hp, by simp only [fsObjDisable, hp, if_neg hfails]⟩
  · obtain ⟨rfl, rfl⟩ := Prod.mk.inj (Option.some.inj h)
    exact .inl rfl

/-- What a step does to the objects, and that clients go on with files of their own. -/
theorem Daemon.Apart.step {ev : DaemonEv} (h : d.Apart e) (hok : d.StepMeets ev)
    (hstep : d.step e ev = some d') : d'.Apart e ∧ d.Effect e ev d'.objects := by
  cases ev with
  | accept =>
    obtain rfl := Option.some.inj hstep
    have hup : ∀ j, Daemon.upload { d with clients := d.clients ++ [some cliAlloc] } j = d.upload j := by
      intro j
      unfold Daemon.upload
      rcases d.client_accept j with heq | ⟨heq, hnone⟩
      · rw [heq]
      · rw [heq, hnone]
        rfl
    refine ⟨⟨fun i cli hi => ?_, fun i j p hi hj => ?_⟩, .same (funext fun p => ?_)⟩
    · rcases d.client_accept i with heq | ⟨heq, -⟩
      · exact h.clients i cli (heq.symm.trans hi)
      · obtain rfl := Option.some.inj (heq.symm.trans hi)
        exact .of_none rfl (fun _ hs => (by cases hs)) (by rintro wi ⟨⟩)
    · rw [hup] at hi hj
      exact h.distinct i j p hi hj
    · exact Daemon.objects_congr (Daemon.uploads_congr fun j => by rw [hup]) rfl
  | client i io cev =>
    simp only [Daemon.step] at hstep
    split at hstep
    · obtain rfl := Option.some.inj hstep
      exact ⟨h, .same rfl⟩
    · next cli hi =>
      obtain ⟨⟨srv', c⟩, hconn, rfl⟩ := Option.map_eq_some_iff.mp hstep
      obtain ⟨hchange, hstores⟩ := connStep_stored hconn (h.clients i cli hi)
        (hok cli hi)
      exact h.client hi hchange hstores
  | check c =>
    obtain ⟨⟨srv', chk'⟩, hchk, rfl⟩ := Option.map_eq_some_iff.mp hstep
    rcases chkStep_fs hchk with hfs | ⟨tableId, fn, cep, p, hbad, hp, hfs⟩
    · refine ⟨⟨fun i cli hi => ?_, h.distinct⟩, .same (funext fun p => ?_)⟩
      · change cli.Stores e srv'.fs
        rw [hfs]
        exact h.clients i cli hi
      · refine Daemon.objects_congr rfl ?_
        change srv'.fs.content p = _
        rw [hfs]
    · have hfree : d.uploads p = false := by
        unfold Daemon.StepMeets at hok
        rw [hbad] at hok
        exact hok p hp
      have ht : FileSys.Touches p d.srv.fs srv'.fs := by
        rw [hfs]
        exact FileSys.touches_unlink d.srv.fs p
      have hgone : srv'.fs.content p = none := by rw [hfs, FileSys.content_unlink]
      refine ⟨⟨fun i cli hi => ?_, h.distinct⟩, .disabled (p := p) rfl (funext fun q => ?_)⟩
      · refine (h.clients i cli hi).kept ht fun hup => ?_
        have huploads : d.uploads p = true := by
          refine Daemon.uploads_iff.mpr ⟨i, ?_⟩
          rw [Daemon.upload, show d.client i = some cli from hi, Option.bind_some, hup]
        rw [hfree] at huploads
        cases huploads
      · by_cases hq : q = p
        · subst hq
          rw [Function.update_self, Daemon.objects]
          split
          · rfl
          · exact hgone
        · rw [Function.update_of_ne hq]
          exact Daemon.objects_congr rfl (ht.content hq)

end

/-! ## Runs -/

/-- A server that may have died. -/
def StoreMeets (d : Option Daemon) (ev : DaemonEv) : Prop := ∀ d' ∈ d, d'.StepMeets ev

/-- A step of the run stored `data` under the name `p`, for this client. -/
def StoredIn (e : Env) (srv : Srv) (evs : List DaemonEv) (p : Path) (cli : Client) (data : Bytes) :
    Prop :=
  ∃ done i io cev rest d d', evs = done ++ .client i io cev :: rest ∧
    run (daemonNext e) (some (Daemon.init srv)) done = some d ∧ d.client i = some cli ∧
    d.step e (.client i io cev) = some d' ∧ cli.path e = p ∧ d.objects p = none ∧
    d'.objects p = some (storedFile e cli.keyBytes cli.user data) ∧
    (storedHdr e cli.keyBytes cli.user data).Describes cli.keyBytes data

theorem StoredIn.append {e : Env} {srv : Srv} {evs : List DaemonEv} {p : Path} {cli : Client}
    {data : Bytes} (h : StoredIn e srv evs p cli data) (ev : DaemonEv) :
    StoredIn e srv (evs ++ [ev]) p cli data := by
  obtain ⟨done, i, io, cev, rest, d, d', rfl, h⟩ := h
  exact ⟨done, i, io, cev, rest ++ [ev], d, d', by simp, h⟩

theorem run_apart (e : Env) (srv : Srv) {evs : List DaemonEv} {d : Daemon}
    (hmeets : Meets (daemonNext e) StoreMeets (some (Daemon.init srv)) evs)
    (hrun : run (daemonNext e) (some (Daemon.init srv)) evs = some d) : d.Apart e := by
  have hall : ∀ d, run (daemonNext e) (some (Daemon.init srv)) evs = some d → d.Apart e := by
    refine hmeets.invariant (I := fun d : Option Daemon => ∀ d', d = some d' → d'.Apart e) ?_ ?_
    · rintro d ⟨⟩
      exact Daemon.init_apart e srv
    · intro d ev h hok d' hd'
      obtain ⟨d, rfl, hstep⟩ := Option.bind_eq_some_iff.mp hd'
      exact ((h d rfl).step (hok d rfl) hstep).1
  exact hall d hrun

/-- Every step of a run stores one object whole, under a name that had none, removes one at the request
of its owner, has one taken away by the self-check, or leaves all objects as they were. -/
theorem run_effect (e : Env) (srv : Srv) {evs : List DaemonEv} {ev : DaemonEv} {d d' : Daemon}
    (hmeets : Meets (daemonNext e) StoreMeets (some (Daemon.init srv)) (evs ++ [ev]))
    (hrun : run (daemonNext e) (some (Daemon.init srv)) evs = some d) (hstep : d.step e ev = some d') :
    d.Effect e ev d'.objects := by
  obtain ⟨hmeets, hlast⟩ := Meets.append.mp hmeets
  rw [hrun] at hlast
  exact ((run_apart e srv hmeets hrun).step (hlast.1 d rfl) hstep).2

/-- An object that is there has been there from the beginning or was stored by a step. -/
theorem run_stored (e : Env) (srv : Srv) {evs : List DaemonEv}
    (hmeets : Meets (daemonNext e) StoreMeets (some (Daemon.init srv)) evs) {d : Daemon}
    (hrun : run (daemonNext e) (some (Daemon.init srv)) evs = some d) {p : Path} {bs : Bytes}
    (hbs : d.objects p = some bs) :
    srv.fs.content p = some bs ∨ ∃ cli data, StoredIn e srv evs p cli data ∧
      bs = storedFile e cli.keyBytes cli.user data := by
  induction evs using List.reverseRecOn generalizing d bs with
  | nil =>
    obtain rfl := Option.some.inj hrun
    exact .inl hbs
  | append_singleton evs ev ih =>
    obtain ⟨hprev, hlast⟩ := Meets.append.mp hmeets
    rw [run_append] at hrun
    obtain ⟨d₁, hrun₁, hstep⟩ := Option.bind_eq_some_iff.mp hrun
    rw [hrun₁] at hlast
    have hkept : d₁.objects p = some bs → srv.fs.content p = some bs ∨
        ∃ cli data, StoredIn e srv (evs ++ [ev]) p cli data ∧
          bs = storedFile e cli.keyBytes cli.user data := by
      intro hbs₁
      refine (ih hprev hrun₁ hbs₁).imp id ?_
      rintro ⟨cli, data, hst, rfl⟩
      exact ⟨cli, data, hst.append ev, rfl⟩
    have hupdate : ∀ {q : Path} {v : Option Bytes}, d.objects = Function.update d₁.objects q v →
        p ≠ q ∨ v = none → d₁.objects p = some bs := by
      intro q v hobj hor
      rw [hobj] at hbs
      by_cases hp : p = q
      · rw [hp, Function.update_self, hor.resolve_left (not_not.mpr hp)] at hbs
        cases hbs
      · rwa [Function.update_of_ne hp] at hbs
    have heffect := ((run_apart e srv hprev hrun₁).step (hlast.1 d₁ rfl) hstep).2
    cases heffect with
    | same h => exact hkept (h ▸ hbs)
    | @stored i io cev cli data hev hi habsent hdesc h =>
      by_cases hp : p = cli.path e
      · subst hp
        have hnew : d.objects (cli.path e) = some (storedFile e cli.keyBytes cli.user data) := by
          rw [h, Function.update_self]
        obtain rfl := Option.some.inj (hbs.symm.trans hnew)
        exact .inr ⟨cli, data, ⟨evs, i, io, cev, [], d₁, d, by rw [hev], hrun₁, hi, hev ▸ hstep, rfl,
          habsent, hnew, hdesc⟩, rfl⟩
      · exact hkept (hupdate h (.inl hp))
    | removed _ _ _ _ h => exact hkept (hupdate h (.inr rfl))
    | disabled _ h => exact hkept (hupdate h (.inr rfl))

/-! ## Readers -/

/-- What `fs_obj_open` accepts of a stored file is all of it. -/
theorem fsObjOpen_stored {e : Env} {y : Sys} {fs : Vol} {tableId ino : Nat} {user key key' owner d : Bytes}
    {obj : FsObj} (hopen : fsObjOpen e y fs tableId user key = .ok obj)
    (hlook : fs.lookup ⟨tableId, e.sha256 key⟩ = some ino)
    (hfile : (fs.file ino).data = storedFile e key' owner d)
    (hdesc : (storedHdr e key' owner d).Describes key' d) :
    key' = key ∧ cstr (strncpy beFsOwnerSz owner) = cstr user ∧
      obj = .opened (storedHdr e key' owner d) ino key ((blocks chunkBlkSz d).map e.sha1).flatten
        (fs.file ino).mtime := by
  obtain ⟨fn, ino', hdr, csums, -, hfn, hino, rfl, -, howner, hkeyLen, -, -, hrest, hcsums, rfl⟩ :=
    fsObjOpen_ok hopen
  obtain rfl := pathname_eq hfn
  obtain rfl := Option.some.inj (hlook.symm.trans hino)
  have hhdr : BeFsObjHdr.ofBytes ((fs.file ino).data.take beFsObjHdrSz) = storedHdr e key' owner d := by
    rw [hfile, storedFile, objFile, List.append_assoc, List.append_assoc,
      List.take_left' (encode_length hdesc.sized), BeFsObjHdr.ofBytes_encode hdesc.sized]
  rw [hhdr] at howner hkeyLen hrest hcsums ⊢
  have hlen : key'.length = key.length := hkeyLen
  have hmid : (key' ++ ((blocks chunkBlkSz d).map e.sha1).flatten).length =
      key.length + csumBytes (storedHdr e key' owner d).nBlk := by
    rw [List.length_append, ← csumBytes_eq hdesc, hlen]
  have hf := take_drop_field (encode_length hdesc.sized) hmid d
  rw [hfile, storedFile, objFile] at hrest
  simp only [List.append_assoc] at hf hrest
  obtain ⟨hk, hc⟩ := List.append_inj (hf.symm.trans hrest) hlen
  rw [hc]
  exact ⟨hk, howner, rfl⟩

/-- Between any two steps, which is when the thread of the server opens an object, what it opens is as it
was in the beginning, or all of what a step stored, for a client of that user's name. -/
theorem run_open_whole (e : Env) (srv : Srv) {evs : List DaemonEv} {d : Daemon}
    (hmeets : Meets (daemonNext e) StoreMeets (some (Daemon.init srv)) evs)
    (hrun : run (daemonNext e) (some (Daemon.init srv)) evs = some d) {y : Sys} {tableId : Nat}
    {user key : Bytes} {obj : FsObj} (hopen : fsObjOpen e y d.srv.fs tableId user key = .ok obj) :
    d.srv.fs.content ⟨tableId, e.sha256 key⟩ = srv.fs.content ⟨tableId, e.sha256 key⟩ ∨
      ∃ cli data, StoredIn e srv evs ⟨tableId, e.sha256 key⟩ cli data ∧ cli.keyBytes = key ∧
        cstr (strncpy beFsOwnerSz cli.user) = cstr user ∧ obj.size = data.length ∧
        obj.hash = e.sha1 data ∧ ∀ yo : Sys, yo.Calm →
          fsObjReadAll e d.srv.fs yo.reads data.length 0 obj.size obj = some data := by
  have hapart := run_apart e srv hmeets hrun
  obtain ⟨fn, ino, hdr, csums, -, hfn, hino, hhdr, hmagic, -⟩ := fsObjOpen_ok hopen
  obtain rfl := pathname_eq hfn
  have hcontent := FileSys.content_of_lookup hino
  -- a file that is being written has no header
  have hfree : d.uploads ⟨tableId, e.sha256 key⟩ = false := by
    by_contra hup
    obtain ⟨i, hi⟩ := Daemon.uploads_iff.mp (by simpa using hup)
    obtain ⟨bs, hbs, hblank⟩ := hapart.opened hi
    obtain rfl := Option.some.inj (hcontent.symm.trans hbs)
    refine hblank.unmarked ?_
    rw [← hmagic, hhdr]
    simp [BeFsObjHdr.ofBytes, List.take_take, beFsObjHdrSz]
  have hobj : d.objects ⟨tableId, e.sha256 key⟩ = some (d.srv.fs.file ino).data := by
    rw [Daemon.objects, if_neg (by simp [hfree]), hcontent]
  rcases run_stored e srv hmeets hrun hobj with hold | ⟨cli, data, hst, hfile⟩
  · exact .inl (hcontent.trans hold.symm)
  · have hdesc : (storedHdr e cli.keyBytes cli.user data).Describes cli.keyBytes data := by
      obtain ⟨-, -, -, -, -, -, -, -, -, -, -, -, -, -, hdesc⟩ := hst
      exact hdesc
    obtain ⟨hkey, howner, rfl⟩ := fsObjOpen_stored hopen hino hfile hdesc
    refine .inr ⟨cli, data, hst, hkey, howner, rfl, rfl, fun yo hcalm => ?_⟩
    rw [hkey] at hfile hdesc
    have hread := @fsObjReadAll_objFile e _ key data yo d.srv.fs ino (d.srv.fs.file ino).mtime hcalm
      hfile hdesc data.length 0 0 (by omega)
    simpa [FsObj.at, FsObj.opened, storedHdr, hkey] using hread

/-! ## Storing -/

instance (dataLen : Nat) : Decidable (SmallData dataLen) := inferInstanceAs (Decidable (_ < _))

instance (io : Io) (cli : Client) (wi : WorkerInfo) : Decidable (cli.CopyMeets io wi) :=
  inferInstanceAs (Decidable (_ ∧ _))

instance (io : Io) (cli : Client) (ev : ConnEv) : Decidable (cli.StepMeets io ev) :=
  inferInstanceAs (Decidable (_ ∧ _))

instance Daemon.decidableStepMeets (d : Daemon) : (ev : DaemonEv) → Decidable (d.StepMeets ev)
  | .accept => .isTrue trivial
  | .client i io cev => inferInstanceAs (Decidable (∀ cli ∈ d.client i, cli.StepMeets io cev))
  | .check _ =>
    match h : d.chk with
    | .bad tableId fn _ =>
      decidable_of_iff (∀ p ∈ d.srv.fs.named tableId fn, d.uploads p = false)
        (by simp only [Daemon.StepMeets, h])
    | .next | .got .. | .held .. | .summed .. | .done _ =>
      .isTrue (by simp only [Daemon.StepMeets, h])

instance (d : Option Daemon) (ev : DaemonEv) : Decidable (StoreMeets d ev) :=
  inferInstanceAs (Decidable (∀ d' ∈ d, d'.StepMeets ev))

/-- The bytes of an object come. -/
def abcEv : DaemonEv := .client 0 (reads abc).1 .func

/-- A client has logged in, opened a table and asked to store an object of three bytes. -/
def putDaemon : Daemon :=
  (run (daemonNext .storing) (some (Daemon.init bareSrv)) (firstClient putReads)).getD
    (Daemon.init bareSrv)

theorem putDaemon_run :
    run (daemonNext .storing) (some (Daemon.init bareSrv)) (firstClient putReads) = some putDaemon := by
  obtain ⟨d, hd⟩ := Option.isSome_iff_exists.mp (show
    (run (daemonNext .storing) (some (Daemon.init bareSrv)) (firstClient putReads)).isSome = true by
      decide +kernel)
  unfold putDaemon
  rw [hd]
  rfl

theorem run_effect_abc : ∃ d', putDaemon.step .storing abcEv = some d' ∧
    putDaemon.objects ⟨1, Env.sample.sha256 [0x6b]⟩ = none ∧
    d'.objects ⟨1, Env.sample.sha256 [0x6b]⟩ = some (storedFile .storing [0x6b] [0x75] abc) ∧
    putDaemon.Effect .storing abcEv d'.objects := by
  have hstored : (putDaemon.step .storing abcEv).map
      (fun d' => (putDaemon.objects ⟨1, Env.sample.sha256 [0x6b]⟩,
        d'.objects ⟨1, Env.sample.sha256 [0x6b]⟩)) =
      some (none, some (storedFile .storing [0x6b] [0x75] abc)) := by decide +kernel
  obtain ⟨d', hstep, heq⟩ := Option.map_eq_some_iff.mp hstored
  obtain ⟨hnone, hsome⟩ := Prod.mk.inj heq
  refine ⟨d', hstep, hnone, hsome, run_effect .storing bareSrv ?_ putDaemon_run hstep⟩
  decide +kernel

theorem run_open_whole_abc : ∃ d obj cli data,
    fsObjOpen .storing .calm (Daemon.srv d).fs 1 [0x75] [0x6b] = .ok obj ∧
      StoredIn .storing bareSrv (firstClient putReads ++ [abcEv])
        ⟨1, Env.storing.sha256 [0x6b]⟩ cli data ∧
      cli.keyBytes = [0x6b] ∧ cstr (strncpy beFsOwnerSz cli.user) = [0x75] ∧
      fsObjReadAll .storing d.srv.fs Sys.calm.reads data.length 0 obj.size obj = some data := by
  have hopens : (run (daemonNext .storing) (some (Daemon.init bareSrv))
      (firstClient putReads ++ [abcEv])).any (fun d =>
        (fsObjOpen .storing .calm d.srv.fs 1 [0x75] [0x6b]).toOption.isSome) = true := by
    decide +kernel
  obtain ⟨d, hrun, hok⟩ := (Option.any_eq_true _ _).mp hopens
  cases hopen : fsObjOpen .storing .calm d.srv.fs 1 [0x75] [0x6b] with
  | error err => simp [hopen, Except.toOption] at hok
  | ok obj =>
    have hmeets : Meets (daemonNext .storing) StoreMeets (some (Daemon.init bareSrv))
        (firstClient putReads ++ [abcEv]) := by decide +kernel
    rcases run_open_whole .storing bareSrv hmeets hrun hopen with hold | h
    · obtain ⟨fn, ino, hdr, csums, -, hfn, hino, -⟩ := fsObjOpen_ok hopen
      obtain rfl := pathname_eq hfn
      rw [FileSys.content_of_lookup hino] at hold
      cases hold
    · obtain ⟨cli, data, hst, hkey, howner, -, -, hread⟩ := h
      exact ⟨d, obj, cli, data, hopen, hst, hkey, howner, hread .calm Sys.calm_calm⟩

end Hail.Chunkd
