import TagFilesystem.Fuse.Getxattr
import TagFilesystem.FuseLowlevel.Coherence

namespace TagFilesystem

variable {names : List CStr}

/-- The member `size` for a string of length `len`. -/
def ioctlSize (len : ℤ) : ℤ := if len > bufsize then bufsize else len

theorem reports_ioctlSize : Reports names (ioctlSize (joined names).length)
    (ioctlWrites (joined names)) ↔ (joined names).length < bufsize := by
  constructor
  · intro h
    have hlt := h.size_lt
    unfold ioctlSize at hlt
    split_ifs at hlt
    · exact absurd hlt (Int.lt_irrefl _)
    · exact Int.ofNat_lt.mp hlt
  · intro h
    have hsize : ioctlSize (joined names).length = (joined names).length := by
      rw [ioctlSize, if_neg]
      omega
    rw [hsize]
    exact reports_joined h

namespace Fuse

variable {s : Store} {f : FileId} {F : File} {fd : FileDescriptor}

theorem ioctlReadTags_eq (hf : fileGet s fd.path.filename = some f)
    (hF : s.fileHeap.get? f = some F) (hn : F.HasNames s names) : ∃ data,
      ioctlReadTags s fd = .ok (0, some data) ∧ data.size = ioctlSize (joined names).length ∧
        data.writes = ioctlWrites (joined names) := by
  unfold ioctlReadTags
  rw [hf]
  dsimp only
  rw [fileGetTagsString_eq hF hn]
  refine ⟨_, rfl, ?_, rfl⟩
  show ((if (joined names).length > bufsize then bufsize else (joined names).length : ℕ) : ℤ) = _
  unfold ioctlSize
  split_ifs <;> omega

theorem returns_ioctlWrites : Returns (ioctlReadTags s fd) fun r =>
    ∀ data, r.2 = some data → ∃ str, data.writes = ioctlWrites str := by
  unfold ioctlReadTags
  split
  · rintro data ⟨⟩
  · refine (returns_true _).bind fun r _ => ?_
    rintro data ⟨⟩
    exact ⟨r.1, rfl⟩

/-- The request succeeds, writes inside the array only and reports the names. -/
def AnswersTags (s : Store) (fd : FileDescriptor) (names : List CStr) : Prop :=
  ∃ data, ioctlReadTags s fd = .ok (0, some data) ∧ InBuffer data.writes ∧
    Reports names data.size data.writes

end Fuse

namespace FuseLowlevel

variable {env : Env} {s : Store} {f : FileId} {F : File}

/-- The names of the tags of a file, in the order of `f->tags`. -/
def File.HasNames (s : Store) (F : File) (names : List CStr) : Prop :=
  List.Forall₂ (fun e n => ∃ T, s.tagHeap.get? e.2 = some T ∧ T.value = n) F.tags.entries names

theorem fileGetTagsString_eq (hF : s.fileHeap.get? f = some F) (hn : F.HasNames s names) :
    fileGetTagsString env s f = .ok (joined names,
      if names = [] then env.uninitialized else (joined names).length) := by
  have hloop := forEach_joined (g := fun str => (str.length : ℤ))
    (b := fun (r : CStr × ℤ × ℕ) e => do
      let T ← s.readTag (some e.2)
      let str := r.1 ++ (if r.2.2 = 0 then [] else cstr [32]) ++ T.value
      .ok (str, (str.length : ℤ), r.2.2 + 1)) (E := Fault) ?_ hn env.uninitialized
  · unfold fileGetTagsString
    rw [sat_readFile hF]
    exact congrArg (fun r : Except Fault (CStr × ℤ × ℕ) => r >>= fun r => .ok (r.1, r.2.1)) hloop
  · rintro str c k e n ⟨T, hT, rfl⟩
    rw [sat_readTag hT]
    rfl

theorem ioctlReadTags_eq (hF : s.fileHeap.get? f = some F) (hn : F.HasNames s names) :
    ioctlReadTags env s f = .ok [.ioctl
      (ioctlSize (if names = [] then env.uninitialized else (joined names).length))
      (ioctlWrites (joined names))] := by
  unfold ioctlReadTags
  rw [fileGetTagsString_eq hF hn]
  rfl

theorem returns_ioctlWrites : Returns (ioctlReadTags env s f) fun rs =>
    ∀ size writes, .ioctl size writes ∈ rs → ∃ str, writes = ioctlWrites str := by
  refine (returns_true _).bind fun r _ => ?_
  intro size writes hmem
  cases List.mem_singleton.mp hmem
  exact ⟨r.1, rfl⟩

/-- The request is answered with writes inside the array only, which report the names. -/
def AnswersTags (env : Env) (s : Store) (f : FileId) (names : List CStr) : Prop :=
  ∃ size writes, ioctlReadTags env s f = .ok [.ioctl size writes] ∧ InBuffer writes ∧
    Reports names size writes

end FuseLowlevel

/-- Neither implementation writes inside the array only, whatever the file and its tags. Apart from
that, the string and its length are right exactly if the names have fewer bytes than the array; in
`fuse_lowlevel/` the file must also have a tag, as the length has no value otherwise. -/
theorem ioctl_never_answers (names : List CStr) :
    (∀ s fd, ¬ Fuse.AnswersTags s fd names) ∧
    (∀ env s f, ¬ FuseLowlevel.AnswersTags env s f names) ∧
    (∀ (s : Fuse.Store) fd f F, Fuse.fileGet s fd.path.filename = some f →
      s.fileHeap.get? f = some F → F.HasNames s names →
      ((∃ data, Fuse.ioctlReadTags s fd = .ok (0, some data) ∧
        Reports names data.size data.writes) ↔ (joined names).length < bufsize)) ∧
    ∀ (env : FuseLowlevel.Env) (s : FuseLowlevel.Store) f F,
      s.fileHeap.get? f = some F → F.HasNames s names →
      ((∀ garbage, ∃ size writes,
        FuseLowlevel.ioctlReadTags { env with uninitialized := garbage } s f =
          .ok [.ioctl size writes] ∧ Reports names size writes) ↔
        names ≠ [] ∧ (joined names).length < bufsize) := by
  refine ⟨?_, ?_, ?_, ?_⟩
  · rintro s fd ⟨data, hdata, hin, -⟩
    obtain ⟨str, hstr⟩ := Fuse.returns_ioctlWrites.of_ok hdata data rfl
    exact not_inBuffer str (hstr ▸ hin)
  · rintro env s f ⟨size, writes, hreply, hin, -⟩
    obtain ⟨str, hstr⟩ := FuseLowlevel.returns_ioctlWrites.of_ok hreply size writes
      (List.mem_singleton_self _)
    exact not_inBuffer str (hstr ▸ hin)
  · intro s fd f F hf hF hn
    obtain ⟨data, hdata, hsize, hwrites⟩ := Fuse.ioctlReadTags_eq hf hF hn
    rw [← reports_ioctlSize, ← hsize, ← hwrites]
    constructor
    · rintro ⟨data', hdata', hr⟩
      cases hdata.symm.trans hdata'
      exact hr
    · exact fun hr => ⟨data, hdata, hr⟩
  · intro env s f F hF hn
    simp only [FuseLowlevel.ioctlReadTags_eq hF hn]
    by_cases hnil : names = []
    · subst hnil
      refine iff_of_false (fun h => ?_) fun h => h.1 rfl
      obtain ⟨size, writes, hreply, hr⟩ := h 1
      cases hreply
      exact absurd (reports_nil.mp hr) (by decide)
    · simp only [if_neg hnil]
      refine ⟨fun h => ⟨hnil, ?_⟩, fun h _ => ⟨_, _, rfl, reports_ioctlSize.mpr h.2⟩⟩
      obtain ⟨size, writes, hreply, hr⟩ := h 0
      cases hreply
      exact reports_ioctlSize.mp hr

/-- The file `f` is looked up and opened. -/
def openF : List Fuse.Event :=
  [⟨Fuse.sampleEnv, .getattr (samplePath [] nameF)⟩,
    ⟨Fuse.sampleEnv, .openFile (samplePath [] nameF) 0 ⟨1, some 2⟩⟩]

theorem openF_untagged : ∃ s fd F, execute Fuse.step (fun _ _ => True) openF .init = some s ∧
    s.fds.get? 2 = some fd ∧ Fuse.fileGet s fd.path.filename = some 0 ∧
    s.fileHeap.get? 0 = some F ∧ F.HasNames s [] := by
  have hrun : (execute Fuse.step (fun _ _ => True) openF .init).any (fun s =>
      (s.fds.get? 2).any fun fd => Fuse.fileGet s fd.path.filename = some 0 ∧
        (s.fileHeap.get? 0).map (fun F => F.tags.entries) = some []) = true := by
    decide +kernel
  obtain ⟨s, hs, hp⟩ := (Option.any_eq_true _ _).mp hrun
  obtain ⟨fd, hfd, hp⟩ := (Option.any_eq_true _ _).mp hp
  obtain ⟨hf, hentries⟩ := of_decide_eq_true hp
  obtain ⟨F, hF, hnil⟩ := Option.map_eq_some_iff.mp hentries
  refine ⟨s, fd, F, hs, hfd, hf, hF, ?_⟩
  rw [Fuse.File.HasNames, hnil]
  exact .nil

/-- The file `f` without tags, open in `fuse/` and known to `fuse_lowlevel/`. -/
theorem ioctl_never_answers_sample : (∃ s fd,
    execute Fuse.step (fun _ _ => True) openF .init = some s ∧ s.fds.get? 2 = some fd ∧
    (∃ data, Fuse.ioctlReadTags s fd = .ok (0, some data) ∧ Reports [] data.size data.writes) ∧
    ¬ Fuse.AnswersTags s fd []) ∧
    ∃ s f, FuseLowlevel.sampleRun [] = some s ∧ FuseLowlevel.fileGet s nameF = some f ∧
      ¬ FuseLowlevel.AnswersTags FuseLowlevel.sampleEnv s f [] := by
  obtain ⟨hfuse, hlowlevel, hreports, -⟩ := ioctl_never_answers []
  constructor
  · obtain ⟨s, fd, F, hs, hfd, hf, hF, hn⟩ := openF_untagged
    exact ⟨s, fd, hs, hfd, (hreports s fd 0 F hf hF hn).mpr (by decide), hfuse s fd⟩
  · have hrun : (FuseLowlevel.sampleRun []).any (fun s =>
        (FuseLowlevel.fileGet s nameF).isSome) = true := by decide +kernel
    obtain ⟨s, hs, hp⟩ := (Option.any_eq_true _ _).mp hrun
    obtain ⟨f, hf⟩ := Option.isSome_iff_exists.mp hp
    exact ⟨s, f, hs, hf, hlowlevel _ s f⟩

/-- The NUL behind the array, for the open file `f`. -/
theorem ioctl_writes_behind_array : ¬ ∀ env file s₀ s a fd names,
    Fuse.setRootDirectory env file = .ok s₀ → Reaches Fuse.step (fun _ _ => True) s₀ s →
    s.fds.get? a = some fd → s.NamesOf fd.path.filename names → Fuse.AnswersTags s fd names := by
  intro h
  obtain ⟨s, fd, F, hs, hfd, hf, hF, hn⟩ := openF_untagged
  have h₀ : Fuse.setRootDirectory Fuse.sampleEnv none = .ok .init := rfl
  obtain ⟨data, hdata, hin, -⟩ := h Fuse.sampleEnv none .init s 2 fd [] h₀ (reaches_of_execute hs)
    hfd (.inr ⟨0, F, hf, hF, hn⟩)
  obtain ⟨str, hstr⟩ := Fuse.returns_ioctlWrites.of_ok hdata data rfl
  exact not_inBuffer str (hstr ▸ hin)

end TagFilesystem
