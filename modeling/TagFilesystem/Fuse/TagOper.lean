import TagFilesystem.Fuse.Coherence

namespace TagFilesystem.Fuse

/-- What a callback gives back to the kernel. -/
inductive Reply
  | status (res : ℤ)
  | attr (res : ℤ) (stbuf : Option Stat)
  | value (res : ℤ) (bytes : List UInt8)
  | names (names : List CStr)
  | ioctl (res : ℤ) (data : Option TagIoctl)
  | events (revents : UInt32)
  deriving DecidableEq

section

variable [c : Counting]

/-- An open by the kernel; `malloc` gives out no address that is in use. -/
def openReply (env : Env) (s : Store) (userPath : CStr) (m : Malloc) (flags : ℤ) (isTag : Bool) :
    Except Fault (Reply × Store) :=
  if m.Fresh s then (fun r => (.status r.1, r.2)) <$> tagOpen env s userPath m flags isTag
  else .error .badAddress

/-- A callback: its reply, and the store it leaves. -/
def tagOper (s : Store) (e : Event) : Except Fault (Reply × Store) :=
  match e.callback with
  | .getattr p => (fun r => (.attr r.1 r.2.1, r.2.2)) <$> tagGetattr e.env s p
  | .fgetattr a => (fun r => (.attr r.1 r.2.1, r.2.2)) <$> tagFgetattr e.env s a
  | .setxattr p => .ok (.status (tagSetxattr p), s)
  | .getxattr p name size => (fun r => (.value r.1 r.2.1, r.2.2)) <$> tagGetxattr e.env s p name size
  | .openFile p flags m => openReply e.env s p m flags false
  | .opendir p flags m => openReply e.env s p m flags true
  | .release a => (fun r => (.status r.1, r.2)) <$> tagReleaseGeneric e.env s a
  | .readdir a => (fun r => (.names r.1, r.2)) <$> tagReaddir e.env s a
  | .read a len off => (fun r => (.value r.1 r.2, s)) <$> tagRead e.env s a len off
  | .write a buffer off => (fun r => (.status r, s)) <$> tagWrite e.env s a buffer off
  | .link p q => (fun r => (.status r.1, r.2)) <$> tagLink e.env s p q
  | .unlink p => (fun r => (.status r.1, r.2)) <$> tagUnlink e.env s p
  | .rename p q => (fun r => (.status r.1, r.2)) <$> tagRename e.env s p q
  | .rmdir p => .ok (.status (tagRmdirNoop p), s)
  | .mkdir p => .ok (.status (tagNoopMkdir p), s)
  | .mknod p mode device => .ok (.status (tagMknod e.env p mode device), s)
  | .truncate p length => .ok (.status (tagTruncate e.env p length), s)
  | .chmod p mode => .ok (.status (tagChmod e.env p mode), s)
  | .chown p user group => .ok (.status (tagChown e.env p user group), s)
  | .utime p => .ok (.status (tagUtime e.env p), s)
  | .ioctl a readTags compat => (fun r => (.ioctl r.1 r.2, s)) <$> tagIoctl s a readTags compat
  | .poll a ph => (fun r => (.events r.1, r.2)) <$> tagPoll s a ph

theorem step_eq (s : Store) (e : Event) : step s e = Prod.snd <$> tagOper s e := by
  have hmap {α β γ : Type} (x : Except Fault α) (f : α → β) (g : β → γ) :
      g <$> f <$> x = (fun a => g (f a)) <$> x := by
    cases x <;> rfl
  obtain ⟨env, c⟩ := e
  cases c with
  | openFile p flags m | opendir p flags m =>
    simp only [step, tagOper, openChecked, openReply]
    split_ifs
    · rw [hmap]
    · rfl
  | _ => simp only [step, tagOper, hmap] <;> rfl

end

instance (s : Store) (t : TagId) : Decidable (s.Current t) :=
  decidable_of_iff (∀ T ∈ s.tagHeap.get? t, ∀ t' ∈ s.tags.get? T.value, t' = t)
    ⟨fun h T t' hT hk => h T hT t' hk, fun h T hT t' hk => h T t' hT hk⟩

/-- When a directory is read or a descriptor is released, no other tag has been registered under the
name of one of its own. Its tags may have been removed. -/
def NotReplaced (s : Store) (e : Event) : Prop :=
  match e.callback with
  | .readdir a | .release a => ∀ fd, s.fds.get? a = some fd → ∀ e ∈ fd.path.held, s.Current e.2
  | _ => True

instance (s : Store) (e : Event) : Decidable (NotReplaced s e) :=
  match e with
  | ⟨_, .readdir a⟩ | ⟨_, .release a⟩ =>
    inferInstanceAs (Decidable (∀ fd ∈ s.fds.get? a, ∀ e ∈ fd.path.held, s.Current e.2))
  | ⟨_, .getattr _⟩ | ⟨_, .fgetattr _⟩ | ⟨_, .setxattr _⟩ | ⟨_, .getxattr ..⟩ | ⟨_, .openFile ..⟩
  | ⟨_, .opendir ..⟩ | ⟨_, .read ..⟩ | ⟨_, .write ..⟩ | ⟨_, .link ..⟩ | ⟨_, .unlink _⟩
  | ⟨_, .rename ..⟩ | ⟨_, .rmdir _⟩ | ⟨_, .mkdir _⟩ | ⟨_, .mknod ..⟩ | ⟨_, .truncate ..⟩
  | ⟨_, .chmod ..⟩ | ⟨_, .chown ..⟩ | ⟨_, .utime _⟩ | ⟨_, .ioctl ..⟩ | ⟨_, .poll ..⟩ => .isTrue trivial

end TagFilesystem.Fuse
