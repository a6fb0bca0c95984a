import TagFilesystem.FuseLowlevel.Listing
import TagFilesystem.FuseLowlevel.Tagging
import TagFilesystem.Library.Simulation

namespace TagFilesystem.FuseLowlevel

variable {env : Env} {s s₀ s' : Store} {e : Event} {file : Option CStr} {k n : CStr} {I : Inode}
  {x : Node} {rs : List Reply} {log : List (Event × List Reply)}

/-- The callbacks with their replies. -/
def serve (s : Store) (e : Event) : Except Fault Outcome := call e.env s e.callback

/-- The kernel hands over what `opendir` has replied for the same inode. -/
def handsOver (s : Store) (callback : Callback) : Bool :=
  match callback with
  | .readdir number _ _ fh => fh = inodeGet s number
  | _ => true

/-- No tag is removed that an inode selects, and directories are read by their own handles. -/
def Served (s : Store) (e : Event) : Prop :=
  sparesDirectories s e.callback = true ∧ handsOver s e.callback = true

instance (s : Store) (e : Event) : Decidable (Served s e) := inferInstanceAs (Decidable (_ ∧ _))

theorem returns_serve_follows (h : s.Orderly) (hg : Served s e) :
    Returns (serve s e) (Follows s e) := by
  obtain ⟨env, callback⟩ := e
  cases callback with
  | lookup parent name => exact follows_lookup h parent name
  | forget number nlookup => exact follows_forget h number nlookup
  | getattr number => exact follows_getattr h number
  | opendir number => exact follows_opendir h number
  | readdir number size off fh =>
    obtain rfl : fh = inodeGet s number := of_decide_eq_true hg.2
    exact follows_readdir h number size off
  | link number newparent newname => exact follows_link h number newparent newname
  | unlink parent name => exact follows_unlink h parent name
  | rename parent name newparent newname => exact follows_rename h parent name newparent newname
  | mkdir parent name => exact follows_mkdir h parent name
  | rmdir parent name => exact follows_rmdir h parent name
  | mknod parent name mode rdev => exact follows_mknod h parent name mode rdev
  | read number size off fh => exact follows_read h number size off fh
  | write number buf off fh => exact follows_write h number buf off fh
  | release fh => exact fun _ => .release
  | releasedir => exact fun _ => .releasedir
  | openFile number flags => exact follows_open h number flags
  | setattr number mode => exact follows_setattr h number mode
  | ioctl number readTags compat => exact follows_ioctl h number readTags compat

theorem step_of_serve (h : serve s e = .ok (rs, s')) : step s e = .ok s' := by
  rw [serve] at h
  rw [step, h]
  rfl

theorem Store.Orderly.step (h : s.Orderly) (hg : Served s e) (he : FuseLowlevel.step s e = .ok s')
    (hmax : s'.inodeHeap.next ≤ UInt32.size) : s'.Orderly where
  sound := h.sound.step he
  described := h.described.step h.sound he
  live := h.live.step h.sound hg.1 he
  formed := h.formed.step h.sound he
  paths := Store.Paths.step h.sound (fun _ => h.paths) he hmax

theorem orderly_tagInit (h₀ : tagInit env file = .ok s₀) (hmax : s₀.inodeHeap.next ≤ UInt32.size) :
    s₀.Orderly := by
  have hu := (returns_tagInit (c := False)).of_ok h₀
  exact ⟨hu.sound' sound_rootStore, hu.described sound_rootStore.links described_rootStore,
    hu.invariant allSelectLive_rootStore fun _ _ hq hu => hu.allSelectLive hq,
    hu.invariant formed_rootStore fun _ _ hq hu => hu.formed hq,
    (paths_of_reaches h₀ (.refl s₀ : Reaches FuseLowlevel.step Served s₀ s₀) hmax).2⟩

theorem allows_of_logs (h₀ : tagInit env file = .ok s₀) (h : Logs serve Served s₀ log s) :
    s.Sound ∧ s₀.inodeHeap.next ≤ s.inodeHeap.next ∧
      (s.inodeHeap.next ≤ UInt32.size → s.Orderly ∧ Allows ViewStep s₀.view log s.view) := by
  induction h with
  | nil =>
    exact ⟨sound_of_reaches h₀ (.refl s₀ : Reaches FuseLowlevel.step Served s₀ s₀), le_rfl,
      fun hmax => ⟨orderly_tagInit h₀ hmax, .nil⟩⟩
  | snoc _ hg he ih =>
    obtain ⟨hs, hle, ih⟩ := ih
    have hstep := step_of_serve he
    have hnext := next_le_of_step hs hstep
    refine ⟨hs.step hstep, hle.trans hnext, fun hmax => ?_⟩
    -- inodes are only added, so that the bound held before
    obtain ⟨ho, hlog⟩ := ih (hnext.trans hmax)
    exact ⟨ho.step hg hstep hmax, hlog.snoc ((returns_serve_follows ho hg).of_ok he hmax)⟩

theorem Store.Orderly.single (h : s.Orderly) (hmax : s.inodeHeap.next ≤ UInt32.size) :
    s.view.Single := by
  intro number number' name q q' hx hx'
  obtain ⟨i, I, hI, hnum, hx⟩ := (node_eq_some h.sound.indexed hmax).mp hx
  obtain ⟨i', I', hI', hnum', hx'⟩ := (node_eq_some h.sound.indexed hmax).mp hx'
  -- the inode of a file is that of its record
  have hrecord {i : InodeId} {I : Inode} {q : CStr} (hI : s.inodeHeap.get? i = some I)
      (hx : I.node = some (.file name q)) : ∃ f F, s.files.get? name = some f ∧
        s.fileHeap.get? f = some F ∧ F.ino = i := by
    cases hdir : I.isDirectory with
    | true =>
      rw [I.node_directory hdir] at hx
      cases hx
    | false =>
      obtain ⟨m, p, hfile, hm, -⟩ := h.formed.fileNode hI hdir
      rw [hfile] at hx
      cases hx
      obtain ⟨m', f, hm', hf, hino⟩ := h.described.file hI hdir
      obtain rfl := Option.some.inj (hm.symm.trans hm')
      obtain ⟨F, hF, -⟩ := h.sound.links.files.object hf
      exact ⟨f, F, hf, hF, hino F hF⟩
  obtain ⟨f, F, hf, hF, rfl⟩ := hrecord hI hx
  obtain ⟨f', F', hf', hF', rfl⟩ := hrecord hI' hx'
  obtain rfl := Option.some.inj (hf.symm.trans hf')
  obtain rfl := Option.some.inj (hF.symm.trans hF')
  rw [← hnum, ← hnum', Option.some.inj (hI.symm.trans hI')]

theorem Store.Orderly.node_root (h : s.Orderly) (hmax : s.inodeHeap.next ≤ UInt32.size)
    (hI : s.inodeHeap.get? 0 = some I) : s.node 1 = some (.directory []) := by
  have hdir := h.paths.root hI
  refine (node_eq_some h.sound.indexed hmax).mpr ⟨0, I, hI, h.sound.indexed.number hI, ?_⟩
  rw [I.node_directory hdir, (h.paths.directory hI hdir).2.mpr rfl]

theorem exists_root (h₀ : tagInit env file = .ok s₀) : ∃ I, s₀.inodeHeap.get? 0 = some I := by
  obtain ⟨st, m, hI, -⟩ := ((returns_tagInit (c := False)).of_ok h₀).kept
    (show rootStore.inodeHeap.get? 0 = some rootInode from rfl)
  exact ⟨_, hI⟩

theorem catalogue_tagInit_empty (h₀ : tagInit env (some []) = .ok s₀) : s₀.catalogue = .empty := by
  have hinit : Returns (tagInit env (some [])) fun s => s.catalogue = .empty := by
    rw [tagInit, inodeInit_eq, ok_bind]
    have hroot : rootStore.catalogue = .empty := by
      refine Catalogue.ext_iff_forall.mpr ⟨fun n k => iff_of_false ?_ id, fun k => iff_of_false ?_ id⟩
      · rintro ⟨f, t, hf, -⟩
        cases hf
      · intro hk
        cases hk
    have hparse (s : Store) : parseTags env (some []) s = .ok s := rfl
    refine Sat.bind (P := fun s => s.catalogue = .empty) ?_ fun s hs => (hparse s).symm ▸ hs
    refine sat_forEach_mem (I := fun s : Store => s.catalogue = .empty) ?_ hroot
    rintro d - s hs
    split_ifs
    · exact hs
    · exact sat_map.mpr (returns_fileGetOrCreate_catalogue.mono fun r hr => hr.trans hs)
  exact hinit.of_ok h₀

/-- In every run in which no tag is removed that an inode selects and no inode number is used twice,
every reply and whatever can be seen afterwards is what the catalogue and the inode numbers allow. -/
theorem requests_refine_view (h₀ : tagInit env file = .ok s₀) (h : Logs serve Served s₀ log s)
    (hmax : s.inodeHeap.next ≤ UInt32.size) :
    s₀.view.node 1 = some (.directory []) ∧ (file = some [] → s₀.view.catalogue = .empty) ∧
      Allows ViewStep s₀.view log s.view ∧ s.view.Single := by
  obtain ⟨-, hle, hrun⟩ := allows_of_logs h₀ h
  obtain ⟨ho, hlog⟩ := hrun hmax
  have hmax₀ := hle.trans hmax
  obtain ⟨I, hI⟩ := exists_root h₀
  refine ⟨(orderly_tagInit h₀ hmax₀).node_root hmax₀ hI, ?_, hlog, ho.single hmax⟩
  rintro rfl
  exact catalogue_tagInit_empty h₀

/-- Tags are made, a file is linked and found, the directory is read and the file is moved on. -/
def sampleSession : List Event := ([.mkdir 1 nameX, .mkdir 1 nameY, .link 2 4 nameF, .lookup 4 nameF,
  .opendir 4, .readdir 4 100 0 (some 3), .rename 4 nameF 5 nameF, .unlink 5 nameF, .lookup 4 nameF] :
    List Callback).map (Event.mk sampleEnv)

def sampleReplies : List (List Reply) := [[.entry 4 1 ⟨4, true, 0⟩], [.entry 5 2 ⟨5, true, 0⟩],
  [.entry 2 3 ⟨0, false, 0⟩], [.entry 2 4 ⟨2, false, 5⟩], [.opened 3],
  [.buf [46, 4, 3, 46, 46, 1, 7, 102, 2, 10]], [.err 0], [.err 0], [.err ENOENT]]

theorem exists_sampleLog : ∃ s₀ log s, tagInit sampleEnv (some []) = .ok s₀ ∧
    Logs serve Served s₀ log s ∧ s.inodeHeap.next ≤ UInt32.size ∧ log.map Prod.snd = sampleReplies ∧
      tagExist s nameX = true := by
  have hrun : returnsWith (tagInit sampleEnv (some [])) (fun s₀ =>
      (executeLog serve Served sampleSession [] s₀).any fun r => r.2.inodeHeap.next ≤ UInt32.size ∧
        r.1.map Prod.snd = sampleReplies ∧ tagExist r.2 nameX = true) = true := by decide +kernel
  obtain ⟨s₀, h₀, hrun⟩ := returnsWith_iff.mp hrun
  obtain ⟨⟨log, s⟩, hr, hp⟩ := (Option.any_eq_true _ _).mp hrun
  exact ⟨s₀, log, s, h₀, logs_of_executeLog .nil hr, of_decide_eq_true hp⟩

theorem requests_refine_view_sample : ∃ s₀ log s, log.map Prod.snd = sampleReplies ∧
    Allows ViewStep (Store.view s₀) log (Store.view s) ∧ s.view.Single := by
  obtain ⟨s₀, log, s, h₀, hlog, hmax, hreplies, -⟩ := exists_sampleLog
  exact ⟨s₀, log, s, hreplies, (requests_refine_view h₀ hlog hmax).2.2⟩

/-- `mkdir` has made the tag `k`. -/
def MakesTag (k : CStr) (r : Event × List Reply) : Prop :=
  r.1.callback = .mkdir 1 k ∧ ∃ number g st, r.2 = [.entry number g st]

/-- `rmdir` has removed the tag `k`. -/
def RemovesTag (k : CStr) (r : Event × List Reply) : Prop :=
  r.1.callback = .rmdir 1 k ∧ r.2 = [.err 0]

/-- `link` or `rename` may have given tags to the file `n`. -/
def MayTag (n : CStr) (r : Event × List Reply) : Prop :=
  (∃ number newparent ino g st, r.1.callback = .link number newparent n ∧ r.2 = [.entry ino g st]) ∨
    ∃ parent newparent newname, r.1.callback = .rename parent n newparent newname ∧ r.2 = [.err 0]

theorem View.Touches.catalogue {V V' : View} (h : V.Touches V' x) : V'.catalogue = V.catalogue := by
  cases x with
  | directory tags => exact h.1
  | file name realpath => exact congrArg View.catalogue h

theorem ViewStep.used_iff {V V' : View} (h : ViewStep V e rs V') : V'.catalogue.used k ↔
    MakesTag k (e, rs) ∨ V.catalogue.used k ∧ ¬ RemovesTag k (e, rs) := by
  cases h with
  | mkdir hno hg =>
    simp only [hg.1, Catalogue.use, MakesTag, RemovesTag]
    simp [or_comm, eq_comm]
  | rmdir hk =>
    simp only [View.set, Catalogue.drop, MakesTag, RemovesTag]
    simp [eq_comm]
  | link _ _ hk =>
    have hsame : (V.catalogue.used k ∨ k ∈ [_]) ↔ V.catalogue.used k :=
      or_iff_left_of_imp fun hmem => List.mem_singleton.mp hmem ▸ hk
    simpa [View.set, Catalogue.tag, MakesTag, RemovesTag] using hsame
  | @rename _ _ _ _ _ x y _ _ _ _ _ _ _ hks =>
    have hsame : (V.catalogue.used k ∨ k ∈ y.tags) ↔ V.catalogue.used k :=
      or_iff_left_of_imp (hks k)
    simpa [View.set, Catalogue.tag, Catalogue.strip, MakesTag, RemovesTag] using hsame
  | unlink => simp [View.set, Catalogue.strip, MakesTag, RemovesTag]
  | lookupFile _ _ _ hg | lookupRefused _ _ _ hg | lookupTag _ _ _ _ hg | readdir _ hg
  | mknod _ _ hg =>
    simp [hg.1, MakesTag, RemovesTag]
  | openFile _ ht | ioctl _ ht => simp [ht.catalogue, MakesTag, RemovesTag]
  | rmdirRefused hp => simp [MakesTag, RemovesTag, hp]
  | forgetLast => simp [View.forgets, MakesTag, RemovesTag]
  | lookupUnknown | lookupNone | forget | getattr | getattrFailed | getattrUnknown | opendir
  | opendirFile | opendirUnknown | read | readFailed | readDatabase | readDatabaseFailed | readBefore
  | readUnknown | write | writeFailed | writeRefused | writeUnknown | release | releasedir | readdirFile | readdirUnknown
  | linkNotDirectory | linkRefused | unlinkNone | unlinkRefused | renameUnknown | renameRefused
  | mkdirExists | mkdirRefused | mknodFailed | mknodExists | mknodRefused | openUnknown | setattr
  | setattrRefused | ioctlInvalid | ioctlUnknown =>
    simp [MakesTag, RemovesTag]

theorem ViewStep.mayTag {V V' : View} (h : ViewStep V e rs V') (hk : V'.catalogue.carries n k) :
    MayTag n (e, rs) ∨ V.catalogue.carries n k ∧ ¬ RemovesTag k (e, rs) := by
  have hother (hc : ∀ name, e.callback ≠ .rmdir 1 name) (hold : V.catalogue.carries n k) :
      MayTag n (e, rs) ∨ V.catalogue.carries n k ∧ ¬ RemovesTag k (e, rs) :=
    .inr ⟨hold, fun hr => hc k hr.1⟩
  cases h with
  | mkdir hno hg => exact hother (by simp) (by rw [hg.1] at hk; exact hk)
  | rmdir => exact .inr ⟨hk.1, fun hr => hk.2 (by simpa [RemovesTag, eq_comm] using hr)⟩
  | link =>
    rcases hk with hk | ⟨rfl, -⟩
    · exact hother (by simp) hk
    · exact .inl (.inl ⟨_, _, _, _, _, rfl, rfl⟩)
  | rename =>
    rcases hk with ⟨hk, -⟩ | ⟨rfl, -⟩
    · exact hother (by simp) hk
    · exact .inl (.inr ⟨_, _, _, rfl, rfl⟩)
  | unlink => exact hother (by simp) hk.1
  | lookupFile _ _ _ hg | lookupRefused _ _ _ hg | lookupTag _ _ _ _ hg | readdir _ hg
  | mknod _ _ hg =>
    exact hother (by simp) (hg.1 ▸ hk)
  | openFile _ ht | ioctl _ ht => exact hother (by simp) (ht.catalogue ▸ hk)
  | rmdirRefused hp => exact hother (by simp [hp]) hk
  | forgetLast | lookupUnknown | lookupNone | forget | getattr | getattrFailed | getattrUnknown
  | opendir | opendirFile | opendirUnknown | read | readFailed | readDatabase | readDatabaseFailed
  | readBefore | readUnknown | write | writeFailed | writeRefused | writeUnknown | release | releasedir
  | readdirFile | readdirUnknown | linkNotDirectory | linkRefused | unlinkNone | unlinkRefused
  | renameUnknown | renameRefused | mkdirExists | mkdirRefused | mknodFailed | mknodExists
  | mknodRefused | openUnknown | setattr | setattrRefused | ioctlInvalid | ioctlUnknown =>
    exact hother (by simp) hk

/-- In these runs a tag exists exactly if `mkdir` has made it, or it was there at the start, and it
has not been removed since. A file has a tag only if it had it at the start or a `link` or `rename`
of the file has succeeded, and the tag has not been removed since. -/
theorem tags_last_made (h₀ : tagInit env file = .ok s₀) (h : Logs serve Served s₀ log s)
    (hmax : s.inodeHeap.next ≤ UInt32.size) (n k : CStr) :
    (tagExist s k = true ↔ Since (MakesTag k) (RemovesTag k) (tagExist s₀ k = true) log) ∧
      (HasTag s n k → Since (MayTag n) (RemovesTag k) (HasTag s₀ n k) log) := by
  obtain ⟨-, -, hrun⟩ := allows_of_logs h₀ h
  have hlog := (hrun hmax).2
  refine ⟨⟨?_, ?_⟩, ?_⟩
  · exact hlog.since (P := fun V => V.catalogue.used k) fun _ _ _ _ hs => hs.used_iff.mp
  · exact hlog.of_since (P := fun V => V.catalogue.used k) fun _ _ _ _ hs => hs.used_iff.mpr
  · exact hlog.since (P := fun V => V.catalogue.carries n k) fun _ _ _ _ => ViewStep.mayTag

theorem tags_last_made_sample : ∃ s₀ log, log.map Prod.snd = sampleReplies ∧
    Since (MakesTag nameX) (RemovesTag nameX) (tagExist s₀ nameX = true) log := by
  obtain ⟨s₀, log, s, h₀, hlog, hmax, hreplies, hx⟩ := exists_sampleLog
  exact ⟨s₀, log, hreplies, (tags_last_made h₀ hlog hmax nameF nameX).1.mp hx⟩

end TagFilesystem.FuseLowlevel
