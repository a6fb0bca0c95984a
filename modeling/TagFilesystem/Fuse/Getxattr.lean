import TagFilesystem.Fuse.Getattr
import TagFilesystem.Tagioc

namespace TagFilesystem.Fuse

variable {env : Env} {s s' s₀ : Store} {f : FileId} {F : File} {p n : CStr} {names : List CStr}
  {size : ℕ} {file : Option CStr}

/-- The names of the tags of a file, in the order of `f->tags`. -/
def File.HasNames (s : Store) (F : File) (names : List CStr) : Prop :=
  List.Forall₂ (fun e n => ∃ T, s.tagHeap.get? e.2 = some T ∧ T.value = n) F.tags.entries names

theorem fileGetTagsString_eq (hF : s.fileHeap.get? f = some F) (hn : F.HasNames s names) :
    fileGetTagsString s f = .ok (joined names, (joined names).length) := by
  have hloop := forEach_joined (g := List.length) (b := fun (r : CStr × ℕ × ℕ) e => do
      let T ← s.readTag e.2
      let str := r.1 ++ (if r.2.2 = 0 then [] else cstr [32]) ++ T.value
      .ok (str, str.length, r.2.2 + 1)) (E := Fault) ?_ hn 0
  · unfold fileGetTagsString
    rw [Store.readFile_eq hF]
    refine (congrArg (fun r : Except Fault (CStr × ℕ × ℕ) => r >>= fun r => .ok (r.1, r.2.1))
      hloop).trans ?_
    split_ifs with hnil
    · subst hnil
      rfl
    · rfl
  · rintro str c k e n ⟨T, hT, rfl⟩
    rw [Store.readTag_eq hT]
    rfl

/-- The names of the tags of the file `n`; without a record it has none. -/
def Store.NamesOf (s : Store) (n : CStr) (names : List CStr) : Prop :=
  s.files.get? n = none ∧ names = [] ∨
    ∃ f F, s.files.get? n = some f ∧ s.fileHeap.get? f = some F ∧ F.HasNames s names

end TagFilesystem.Fuse
