import TagFilesystem.Fuse.Tagfs

namespace TagFilesystem.Fuse

variable {env : Env} {s : Store} {t : TagId} {T T' : Tag} {f : FileId} {F F' : File}
  {E : Fault → Prop}

namespace Store

/-- A new tag object in the registry. -/
def registerTag (s : Store) (T : Tag) : Store :=
  { s with tagHeap := s.tagHeap.alloc T, tags := s.tags.add T.value s.tagHeap.next }

/-- A new file record. -/
def registerFile (s : Store) (F : File) : Store :=
  { s with fileHeap := s.fileHeap.alloc F, files := s.files.add F.name s.fileHeap.next }

/-- The events pending on a file after its descriptors have been notified. -/
def notified (env : Env) (s : Store) (F : File) (event : UInt32) : UInt32 :=
  F.descriptors.entries.foldl
    (fun r e => if (s.pollHandle env e.2).isSome then r ||| event else r) F.revents

/-- The two sides of `tag_file`. -/
def attach (env : Env) (s : Store) (t : TagId) (T : Tag) (f : FileId) (F : File) : Store :=
  (s.writeFile f { F with
    tags := F.tags.addNew T.value t
    revents := s.notified env F POLLIN }).writeTag t
      { T with files := T.files.addNew F.name f, inUse := true }

/-- The two sides of `untag_file`. -/
def detach (env : Env) (s : Store) (t : TagId) (T : Tag) (f : FileId) (F : File) : Store :=
  (s.writeFile f { F with
    tags := F.tags.erase T.value
    revents := s.notified env F POLLOUT }).writeTag t { T with files := T.files.erase F.name }

/-- The end of `tag_remove`: the name leaves the registry and a reference is given up. -/
def dropTag (s : Store) (t : TagId) (T : Tag) : Store :=
  { s with
    tags := s.tags.erase T.value
    tagHeap := if T.refCount - 1 = 0 then s.tagHeap.free t
      else s.tagHeap.write t { T with refCount := T.refCount - 1 } }

@[simp] theorem writeTag_tags : (s.writeTag t T).tags = s.tags := rfl
@[simp] theorem writeTag_tagHeap : (s.writeTag t T).tagHeap = s.tagHeap.write t T := rfl
@[simp] theorem writeTag_files : (s.writeTag t T).files = s.files := rfl
@[simp] theorem writeTag_fileHeap : (s.writeTag t T).fileHeap = s.fileHeap := rfl
@[simp] theorem writeTag_fds : (s.writeTag t T).fds = s.fds := rfl
@[simp] theorem writeTag_leaked : (s.writeTag t T).leaked = s.leaked := rfl
@[simp] theorem writeFile_tags : (s.writeFile f F).tags = s.tags := rfl
@[simp] theorem writeFile_tagHeap : (s.writeFile f F).tagHeap = s.tagHeap := rfl
@[simp] theorem writeFile_files : (s.writeFile f F).files = s.files := rfl
@[simp] theorem writeFile_fileHeap : (s.writeFile f F).fileHeap = s.fileHeap.write f F := rfl
@[simp] theorem writeFile_fds : (s.writeFile f F).fds = s.fds := rfl
@[simp] theorem writeFile_leaked : (s.writeFile f F).leaked = s.leaked := rfl

@[simp] theorem writeFile_writeFile :
    (s.writeFile f F).writeFile f F' = s.writeFile f F' := by simp [writeFile]

theorem dropTag_get?_ne {t' : TagId} (ht : t' ≠ t) :
    (s.dropTag t T).tagHeap.get? t' = s.tagHeap.get? t' := by
  unfold dropTag
  dsimp only
  split_ifs
  · rw [Heap.get?_free, if_neg ht]
  · rw [Heap.get?_write_ne ht]

theorem detach_get?_ne {t' : TagId} (ht : t' ≠ t) :
    (s.detach env t T f F).tagHeap.get? t' = s.tagHeap.get? t' := Heap.get?_write_ne ht

theorem detach_get?_self (hT : s.tagHeap.get? t = some T) :
    (s.detach env t T f F).tagHeap.get? t = some { T with files := T.files.erase F.name } :=
  Heap.get?_write_self hT

theorem readTag_eq (h : s.tagHeap.get? t = some T) : s.readTag t = .ok T := by simp [readTag, h]

theorem readFile_eq (h : s.fileHeap.get? f = some F) : s.readFile f = .ok F := by
  simp [readFile, h]

end Store

theorem sat_readTag {Q : Tag → Prop} (hdead : s.tagHeap.get? t = none → E .freedTag)
    (hlive : ∀ T, s.tagHeap.get? t = some T → Q T) : Sat E (s.readTag t) Q := by
  cases h : s.tagHeap.get? t with
  | none => simpa [Store.readTag, h] using hdead h
  | some T => simpa [Store.readTag, h] using hlive T h

theorem sat_readFile {Q : File → Prop} (hbad : s.fileHeap.get? f = none → E .badFile)
    (hgood : ∀ F, s.fileHeap.get? f = some F → Q F) : Sat E (s.readFile f) Q := by
  cases h : s.fileHeap.get? f with
  | none => simpa [Store.readFile, h] using hbad h
  | some F => simpa [Store.readFile, h] using hgood F h

theorem sat_readFd {a : Addr} {Q : FileDescriptor → Prop} (hbad : E .badHandle)
    (hgood : ∀ fd, s.fds.get? a = some fd → Q fd) : Sat E (s.readFd a) Q := by
  cases h : s.fds.get? a with
  | none => simpa [Store.readFd, h] using hbad
  | some fd => simpa [Store.readFd, h] using hgood fd h

theorem fileAddTag_eq (ht : s.tagHeap.get? t = some T) (hf : s.fileHeap.get? f = some F) :
    fileAddTag env s f t = .ok (s.writeFile f { F with
      tags := F.tags.addNew T.value t
      revents := s.notified env F POLLIN }) := by
  simp only [fileAddTag, Store.readTag_eq ht, Store.readFile_eq hf, bind, Except.bind]
  rw [notifyDescriptorsPoll, Store.readFile_eq (Heap.get?_write_self hf)]
  simp only [bind, Except.bind, Store.writeFile_writeFile]
  rfl

theorem fileRemoveTag_eq (ht : s.tagHeap.get? t = some T) (hf : s.fileHeap.get? f = some F) :
    fileRemoveTag env s f t = .ok (s.writeFile f { F with
      tags := F.tags.erase T.value
      revents := s.notified env F POLLOUT }) := by
  simp only [fileRemoveTag, Store.readTag_eq ht, Store.readFile_eq hf, bind, Except.bind]
  rw [notifyDescriptorsPoll, Store.readFile_eq (Heap.get?_write_self hf)]
  simp only [bind, Except.bind, Store.writeFile_writeFile]
  rfl

theorem tagFile_eq (ht : s.tagHeap.get? t = some T) (hf : s.fileHeap.get? f = some F) :
    tagFile env s t f = .ok (s.attach env t T f F) := by
  simp only [tagFile, fileAddTag_eq ht hf, bind, Except.bind, tagAddFile]
  rw [Store.readTag_eq (T := T) (by simpa using ht)]
  dsimp only
  rw [Store.readFile_eq (Heap.get?_write_self hf)]
  rfl

theorem untagFile_eq (ht : s.tagHeap.get? t = some T) (hf : s.fileHeap.get? f = some F) :
    untagFile env s t f = .ok (s.detach env t T f F) := by
  simp only [untagFile, fileRemoveTag_eq ht hf, bind, Except.bind, tagRemoveFile]
  rw [Store.readTag_eq (T := T) (by simpa using ht)]
  dsimp only
  rw [Store.readFile_eq (Heap.get?_write_self hf)]
  rfl

theorem tagDecRef_erase (hu : s.tags.Unique) (ht : s.tagHeap.get? t = some T) :
    tagDecRef { s with tags := s.tags.erase T.value } t = .ok (s.dropTag t T) := by
  have he : (s.tags.erase T.value).erase T.value = s.tags.erase T.value :=
    Table.erase_of_get?_none hu.get?_erase_self
  rw [tagDecRef, Store.readTag_eq (s := { s with tags := s.tags.erase T.value }) (T := T) ht]
  simp only [bind, Except.bind, Store.dropTag, Store.writeTag, Counting.toInt_unbounded]
  split_ifs with hr <;> simp [he]

theorem tagRemove_eq (hu : s.tags.Unique) (ht : s.tagHeap.get? t = some T)
    (hnil : T.files.entries = []) : tagRemove env s t = .ok (s.dropTag t T) := by
  simp only [tagRemove, Store.readTag_eq ht, hnil, List.foldl_nil, Table.entries_empty, forEach_nil,
    bind, Except.bind]
  exact tagDecRef_erase hu ht

theorem fileGetOrCreate_some {n : CStr} (h : s.files.get? n = some f) :
    fileGetOrCreate s n = (f, s) := by simp [fileGetOrCreate, h]

theorem fileGetOrCreate_none {n : CStr} (h : s.files.get? n = none) :
    fileGetOrCreate s n = (s.fileHeap.next, s.registerFile (fileNew n)) := by
  simp [fileGetOrCreate, h, Store.registerFile, fileNew]

theorem tagGetOrCreate_some {k : CStr} (h : s.tags.get? k = some t)
    (ht : s.tagHeap.get? t = some T) :
    tagGetOrCreate s k = .ok (t, s.writeTag t { T with refCount := T.refCount + 1 }) := by
  simp [tagGetOrCreate, tagGetOrCreateIn, h, tagIncRef, Store.readTag_eq ht, bind, Except.bind]

theorem tagIncRef_tagGetOrCreateIn {k : CStr} {u : Bool} (h : s.tags.get? k = none) :
    tagIncRef (tagGetOrCreateIn s k u).2 (tagGetOrCreateIn s k u).1 =
      .ok (s.registerTag { tagNew k u with refCount := 1 }) := by
  simp [tagGetOrCreateIn, h, tagIncRef, Store.readTag, Store.registerTag, Store.writeTag, tagNew,
    bind, Except.bind]

theorem tagGetOrCreate_none {k : CStr} (h : s.tags.get? k = none) :
    tagGetOrCreate s k =
      .ok (s.tagHeap.next, s.registerTag { tagNew k true with refCount := 1 }) := by
  have hi := tagIncRef_tagGetOrCreateIn (u := true) h
  have h1 : (tagGetOrCreateIn s k true).1 = s.tagHeap.next := by simp [tagGetOrCreateIn, h]
  simp only [tagGetOrCreate, bind, Except.bind]
  rw [hi, h1]

/-- `compute_selected_tags`: each component takes a reference to the tag registered under it,
or registers a tag that is not in use. -/
theorem sat_computeSelectedTags {dirpath : CStr} (I : List CStr → HashTable TagId → Store → Prop)
    (hentry : ∀ l sel s k t, I l sel s → s.tags.get? k = some t → ∃ T, s.tagHeap.get? t = some T)
    (hold : ∀ k l sel s t T, I (k :: l) sel s → s.tags.get? k = some t →
      s.tagHeap.get? t = some T →
      I l (sel.add k t) (s.writeTag t { T with refCount := T.refCount + 1 }))
    (hnew : ∀ k l sel s, I (k :: l) sel s → s.tags.get? k = none →
      I l (sel.add k s.tagHeap.next) (s.registerTag { tagNew k false with refCount := 1 }))
    (h : I (components dirpath) .empty s) :
    Sat E (computeSelectedTags s dirpath) fun r => I [] r.1 r.2 := by
  unfold computeSelectedTags
  unfold components at h
  split_ifs at h ⊢ with hd
  · exact h
  refine sat_forEach (fun l (r : HashTable TagId × Store) => I l r.1 r.2) ?_ _ _ h
  rintro k l ⟨sel, s⟩ hI
  cases hk : s.tags.get? k with
  | some t =>
    obtain ⟨T, hT⟩ := hentry _ _ _ _ _ hI hk
    have hi : tagIncRef s t = .ok (s.writeTag t { T with refCount := T.refCount + 1 }) := by
      simp [tagIncRef, Store.readTag_eq hT, bind, Except.bind]
    simp only [tagGet, hk, hi, bind, Except.bind, sat_ok]
    exact hold k l sel s t T hI hk hT
  | none =>
    have hi := tagIncRef_tagGetOrCreateIn (u := false) hk
    have h1 : (tagGetOrCreateIn s k false).1 = s.tagHeap.next := by simp [tagGetOrCreateIn, hk]
    rw [h1] at hi
    simp only [tagGet, hk, bind, Except.bind, h1, hi, sat_ok]
    exact hnew k l sel s hI hk

theorem sat_freeSelectedTags {sel : HashTable TagId} (I : List (CStr × TagId) → Store → Prop)
    (hdead : ∀ e l s, I (e :: l) s → s.tagHeap.get? e.2 = none → E .freedTag)
    (hkeep : ∀ e l s T, I (e :: l) s → s.tagHeap.get? e.2 = some T → T.inUse = true → I l s)
    (hdrop : ∀ e l s T, I (e :: l) s → s.tagHeap.get? e.2 = some T → T.inUse = false →
      s.tags.Unique ∧ T.files.entries = [] ∧ I l (s.dropTag e.2 T))
    (h : I sel.entries s) : Sat E (freeSelectedTags env s sel) (I []) := by
  refine sat_forEach I ?_ _ _ h
  intro e l s hI
  refine sat_bind.mpr (sat_readTag (hdead e l s hI) fun T hT => ?_)
  cases hu : T.inUse with
  | true => simpa using hkeep e l s T hI hT hu
  | false =>
    obtain ⟨hun, hnil, hl⟩ := hdrop e l s T hI hT hu
    simpa [tagRemove_eq hun hT hnil] using hl

/-- The loop of `path_unlink`: each tag loses the file, and is removed if it was the last. -/
theorem sat_pathUnlink {fd : Path} (hf : s.files.get? fd.filename = some f)
    (I : List (CStr × TagId) → Store → Prop)
    (hdead : ∀ e l s, I (e :: l) s → s.tagHeap.get? e.2 = none → E .freedTag)
    (hfile : ∀ l s, I l s → ∃ F, s.fileHeap.get? f = some F)
    (hkeep : ∀ e l s T F, I (e :: l) s → s.tagHeap.get? e.2 = some T →
      s.fileHeap.get? f = some F → (T.files.erase F.name).entries ≠ [] →
      I l (s.detach env e.2 T f F))
    (hdrop : ∀ e l s T F, I (e :: l) s → s.tagHeap.get? e.2 = some T →
      s.fileHeap.get? f = some F → (T.files.erase F.name).entries = [] →
      s.tags.Unique ∧ I l ((s.detach env e.2 T f F).dropTag e.2
        { T with files := T.files.erase F.name }))
    (h : I fd.selectedTags.entries s) :
    Sat E (pathUnlink env s fd) fun r => r.1 = 0 ∧ I [] r.2 := by
  simp only [pathUnlink, fileGet, hf]
  refine (sat_forEach I ?_ _ _ h).bind fun s' hs' => ⟨rfl, hs'⟩
  intro e l s hI
  obtain ⟨F, hF⟩ := hfile _ _ hI
  cases hT : s.tagHeap.get? e.2 with
  | none =>
    have hr : s.readTag e.2 = .error .freedTag := by simp [Store.readTag, hT]
    simpa [untagFile, fileRemoveTag, hr, bind, Except.bind] using hdead e l s hI hT
  | some T =>
    have hT' : (s.detach env e.2 T f F).tagHeap.get? e.2 =
        some { T with files := T.files.erase F.name } := by
      simpa [Store.detach] using Heap.get?_write_self hT
    simp only [untagFile_eq hT hF, bind, Except.bind, Store.readTag_eq hT', Table.size_eq_zero]
    split_ifs with hnil
    · obtain ⟨hun, hl⟩ := hdrop e l s T F hI hT hF hnil
      have hr : tagRemove env (s.detach env e.2 T f F) e.2 = .ok _ := tagRemove_eq hun hT' hnil
      rw [hr]
      exact hl
    · exact hkeep e l s T F hI hT hF hnil

theorem sat_linkLoop {l : List (CStr × TagId)} (I : List (CStr × TagId) → Store → Prop)
    (hdead : ∀ e l s, I (e :: l) s → s.tagHeap.get? e.2 = none → E .freedTag)
    (hfile : ∀ l s, I l s → ∃ F, s.fileHeap.get? f = some F)
    (hstep : ∀ e l s T F, I (e :: l) s → s.tagHeap.get? e.2 = some T →
      s.fileHeap.get? f = some F → I l (s.attach env e.2 T f F))
    (h : I l s) : Sat E (forEach l (fun s e => tagFile env s e.2 f) s) (I []) := by
  refine sat_forEach I ?_ _ _ h
  intro e l s hI
  obtain ⟨F, hF⟩ := hfile _ _ hI
  cases hT : s.tagHeap.get? e.2 with
  | none =>
    have hr : s.readTag e.2 = .error .freedTag := by simp [Store.readTag, hT]
    simpa [tagFile, fileAddTag, hr, bind, Except.bind] using hdead e l s hI hT
  | some T =>
    rw [tagFile_eq hT hF]
    exact hstep e l s T F hI hT hF

end TagFilesystem.Fuse
