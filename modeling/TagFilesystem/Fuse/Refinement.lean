import TagFilesystem.Fuse.Seen
import TagFilesystem.Fuse.Getxattr
import TagFilesystem.Library.Simulation

namespace TagFilesystem.Fuse

variable {env : Env} {s s' : Store} {t : TagId} {f : FileId} {F F' : File} {k n p q : CStr}
  {C : Catalogue CStr CStr} {path : Path} {isTag : Bool}

def Store.view (s : Store) : View := ⟨s.catalogue, fun a => (s.fds.get? a).map (·.path.query)⟩

theorem View.ext {V W : View} (hc : V.catalogue = W.catalogue)
    (ho : ∀ a, V.opened a = W.opened a) : V = W := by
  cases V with
  | mk C o =>
    cases W with
    | mk C' o' =>
      congr
      funext a
      exact ho a

theorem view_of_same (hc : s'.catalogue = C) (ho : SameOpen s s') : s'.view = s.view.set C := by
  apply View.ext hc
  intro a
  simp only [Store.view, View.set, ho.fds]

/-- `path` has been made in `s`, which leaves `s'`; nothing can be seen of it. -/
structure MadePath (env : Env) (s : Store) (userPath : CStr) (isTag : Bool) (path : Path) (s' : Store) :
    Prop where
  query : path.query = Query.of env userPath isTag
  strings : path.virtpath = userPath ∧ path.virtdirpath = dirname userPath
  tidy : s'.Tidy
  coherent : s'.Coherent
  registered : s'.Registered path.selectedTags
  kept : ∀ {k t}, s.tags.get? k = some t → s'.tags.get? k = some t
  catalogue : s'.catalogue = s.catalogue
  fds : s'.fds = s.fds

theorem returns_madePath (h : s.Tidy) (hc : s.Coherent) (userPath : CStr) (isTag : Bool) :
    Returns (pathCreate env s userPath isTag) fun r => MadePath env s userPath isTag r.1 r.2 := by
  apply (sat_pathCreate h.toTyped userPath isTag).mono
  rintro ⟨path, s'⟩ ⟨hpath, hm⟩
  dsimp only at hpath hm ⊢
  have hkeys : path.selectedTags.keys = components (openDir userPath isTag) := hm.keys
  refine
    { query := ?_
      strings := ⟨congrArg Path.virtpath hpath, congrArg Path.virtdirpath hpath⟩
      tidy := hm.tidy h
      coherent := hm.coherent hc
      registered := fun e he => hm.entry he
      kept := hm.kept
      catalogue := hm.catalogue
      fds := hm.fds }
  unfold Path.query Query.of
  rw [hkeys, congrArg Path.realpath hpath, congrArg Path.filename hpath]
  rfl

namespace MadePath

variable (h : MadePath env s p isTag path s')
include h

theorem filename : path.filename = basename p := congrArg Query.filename h.query

theorem keys : path.selectedTags.keys = components (openDir p isTag) := congrArg Query.tags h.query

theorem current (e) (he : e ∈ path.held) : s'.Current e.2 :=
  current_of_registered h.tidy.toTyped (h.registered e he)

end MadePath

theorem Store.Registered.congr {sel : HashTable TagId} (h : s.Registered sel)
    (htags : s'.tags = s.tags) : s'.Registered sel := fun e he => htags ▸ h e he

section Paths

variable (h : s.Tidy) (hc : s.Coherent)
include h hc

theorem returns_tagGetattr_view (p : CStr) : Returns (tagGetattr env s p) fun r =>
    ViewStep s.view ⟨env, .getattr p⟩ (.attr r.1 r.2.1) r.2.2.view := by
  refine ((returns_madePath h hc p false).bind ?_ : Returns (tagGetattr env s p) fun r =>
    (Query.of env p false).Gives env s.catalogue r.1 ∧ r.2.1 = (Query.of env p false).stat env ∧
      r.2.2.catalogue = s.catalogue).and (sameOpen_tagGetattr p) |>.mono ?_
  · rintro ⟨path, s₁⟩ h₁
    dsimp only at h₁ ⊢
    apply (returns_getattrIntra_gives h₁.tidy.toTyped (h₁.registered.labelsAll h₁.tidy.toTyped)).bind
    rintro ⟨res, st, s₂⟩ ⟨rfl, hres, hst⟩
    dsimp only at hres hst ⊢
    rw [h₁.query] at hres hst
    rw [h₁.catalogue] at hres
    refine (sat_deleted (tidy_getattrStore h₁.tidy) (coherent_getattrStore h₁.tidy.toTyped h₁.coherent)
      fun e he => current_of_registered (tidy_getattrStore h₁.tidy).toTyped (k := e.1) ?_).bind ?_
    · rw [getattrStore_tags]
      exact h₁.registered e he
    · intro s₃ hd
      exact ⟨hres, hst, hd.catalogue.trans (catalogue_getattrStore.trans h₁.catalogue)⟩
  · rintro ⟨res, st, s'⟩ ⟨⟨hres, rfl, hcat⟩, ho⟩
    rw [view_of_same hcat ho]
    exact .getattr hres

theorem returns_tagLink_view (p q : CStr) : Returns (tagLink env s p q) fun r =>
    ViewStep s.view ⟨env, .link p q⟩ (.status r.1) r.2.view := by
  have hlink : Returns (tagLink env s p q) fun r =>
      (Query.of env p false).Found env s.catalogue ∧ r.1 = 0 ∧ r.2.catalogue =
          (mkdirCatalogue s.catalogue (dirname q)).tag (basename p) (components (dirname q)) ∨
        ¬ (Query.of env p false).Found env s.catalogue ∧ r.1 = (Query.of env p false).refusal env ∧
          r.2.catalogue = mkdirCatalogue s.catalogue (dirname q) := by
    apply (returns_madePath h hc p false).bind
    rintro ⟨ffrom, s₁⟩ h₁
    apply (returns_madePath h₁.tidy h₁.coherent q false).bind
    rintro ⟨fto, s₂⟩ h₂
    dsimp only at h₁ h₂ ⊢
    have hopen : coherence.opening [] (ffrom.held ++ fto.held) s₂ := by
      refine ⟨h₂.tidy, h₂.coherent, fun e he => ?_⟩
      rw [List.nil_append] at he
      rcases List.mem_append.mp he with he | he
      · exact h₂.kept (h₁.registered e he)
      · exact h₂.registered e he
    refine ((coherence_sound.tagMkdir hopen fto.virtdirpath).and
      (returns_tagMkdir_catalogue h₂.tidy.toTyped fto.virtdirpath)).bind ?_
    rintro ⟨_, s₃⟩ ⟨⟨ht₃, hc₃, hreg⟩, hcat₃⟩
    dsimp only at ht₃ hc₃ hreg hcat₃ ⊢
    rw [h₂.strings.2, h₂.catalogue, h₁.catalogue] at hcat₃
    rw [List.nil_append] at hreg
    have hfrom : s₃.Registered ffrom.selectedTags := fun e he => hreg e (List.mem_append_left _ he)
    have hto : s₃.Registered fto.selectedTags := fun e he => hreg e (List.mem_append_right _ he)
    apply (returns_pathLink_catalogue ht₃ hc₃ hfrom hto).bind
    rintro ⟨res, s₄⟩ ⟨ht₄, hc₄, htags, hcat₄⟩
    dsimp only at ht₄ hc₄ htags hcat₄ ⊢
    -- making the directory does not change whether the file is found
    have hfound : ffrom.query.Found env s₃.catalogue ↔ (Query.of env p false).Found env s.catalogue := by
      rw [h₁.query, hcat₃]
      unfold mkdirCatalogue
      split_ifs
      · exact Iff.rfl
      · exact Iff.rfl
    rw [hfound, hcat₃, h₁.query, h₁.filename, h₂.keys] at hcat₄
    refine (returns_pathDelete_two ht₄ hc₄
      (fun e he => current_of_registered ht₄.toTyped (hfrom.congr htags e he))
      (fun e he => current_of_registered ht₄.toTyped (hto.congr htags e he))).mono ?_
    rintro ⟨_, s₅⟩ ⟨rfl, hcat₅⟩
    rw [hcat₅]
    exact hcat₄.symm
  refine (hlink.and (sameOpen_tagLink p q)).mono ?_
  rintro ⟨res, s'⟩ ⟨⟨hyes, rfl, hcat⟩ | ⟨hno, rfl, hcat⟩, ho⟩
  · rw [view_of_same hcat ho]
    exact .link hyes
  · rw [view_of_same hcat ho]
    exact .linkRefused hno

theorem returns_tagUnlink_view (p : CStr) : Returns (tagUnlink env s p) fun r =>
    ViewStep s.view ⟨env, .unlink p⟩ (.status r.1) r.2.view := by
  by_cases hcount : getCharacterCount p slash ≤ 1
  · rw [tagUnlink, if_pos hcount]
    exact .unlinkRefused hcount
  have hcount' : 1 < getCharacterCount p slash := by omega
  have hunlink : Returns (tagUnlink env s p) fun r =>
      r.1 = -ENOENT ∧ (∀ k, ¬ s.Carries (basename p) k) ∧ r.2.catalogue = s.catalogue ∨
        r.1 = 0 ∧ r.2.catalogue = s.catalogue.untag (basename p) (components (dirname p)) := by
    rw [tagUnlink, if_neg hcount]
    apply (returns_madePath h hc p false).bind
    rintro ⟨path, s₁⟩ h₁
    dsimp only at h₁ ⊢
    apply (returns_pathUnlink_catalogue h₁.tidy h₁.coherent h₁.registered).bind
    rintro ⟨res, s₂⟩ ⟨ht₂, hc₂, hfew, hcat⟩
    dsimp only at ht₂ hc₂ hfew hcat ⊢
    have hcarries (n k : CStr) : s₁.Carries n k ↔ s.Carries n k :=
      (Catalogue.ext_iff_forall.mp h₁.catalogue).1 n k
    simp only [hcarries, h₁.catalogue, h₁.filename, h₁.keys] at hcat
    apply (sat_deleted ht₂ hc₂ fun e he => (h₁.current e he).mono hfew).bind
    intro s₃ hd
    rw [← hd.catalogue] at hcat
    exact hcat
  refine (hunlink.and (sameOpen_tagUnlink p)).mono ?_
  rintro ⟨res, s'⟩ ⟨⟨rfl, hnone, hcat⟩ | ⟨rfl, hcat⟩, ho⟩
  · rw [view_of_same hcat ho]
    exact .unlinkNone hcount' hnone
  · rw [view_of_same hcat ho]
    exact .unlink hcount'

theorem returns_tagRename_view (p q : CStr) : Returns (tagRename env s p q) fun r =>
    ViewStep s.view ⟨env, .rename p q⟩ (.status r.1) r.2.view := by
  have hrename : Returns (tagRename env s p q) fun r => ∀ s', s'.catalogue = r.2.catalogue →
      SameOpen s s' → ViewStep s.view ⟨env, .rename p q⟩ (.status r.1) s'.view := by
    apply (returns_madePath h hc p false).bind
    rintro ⟨ffrom, s₁⟩ h₁
    apply (returns_madePath h₁.tidy h₁.coherent q false).bind
    rintro ⟨fto, s₂⟩ h₂
    dsimp only at h₁ h₂ ⊢
    have hcat₂ : s₂.catalogue = s.catalogue := h₂.catalogue.trans h₁.catalogue
    have hfrom : s₂.Registered ffrom.selectedTags := fun e he => h₂.kept (h₁.registered e he)
    have hsize (path : Path) : path.selectedTags.size = path.selectedTags.keys.length := by
      simp [Table.size, Table.keys]
    by_cases hone : ffrom.selectedTags.size ≠ 1 ∨ fto.selectedTags.size ≠ 1
    · rw [if_pos hone]
      refine (returns_pathDelete_two h₂.tidy h₂.coherent
        (fun e he => current_of_registered h₂.tidy.toTyped (hfrom e he)) h₂.current).mono ?_
      rintro ⟨_, s₃⟩ ⟨rfl, hcat₃⟩ s' hcat ho
      rw [hsize, hsize, h₁.keys, h₂.keys] at hone
      rw [view_of_same (hcat.trans (hcat₃.trans hcat₂)) ho]
      exact .renameRefused hone
    rw [if_neg hone]
    rw [not_or, not_not, not_not, hsize, hsize, h₁.keys, h₂.keys] at hone
    obtain ⟨a, ha⟩ := List.length_eq_one_iff.mp hone.1
    obtain ⟨b, hb⟩ := List.length_eq_one_iff.mp hone.2
    apply (returns_pathLink_catalogue h₂.tidy h₂.coherent hfrom h₂.registered).bind
    rintro ⟨_, s₃⟩ ⟨ht₃, hc₃, htags, hlink⟩
    dsimp only at ht₃ hc₃ htags hlink ⊢
    rw [hcat₂, h₁.query, h₁.filename, h₂.keys, hb] at hlink
    have hfrom₃ : s₃.Registered ffrom.selectedTags := hfrom.congr htags
    apply (returns_pathUnlink_catalogue ht₃ hc₃ hfrom₃).bind
    rintro ⟨_, s₄⟩ ⟨ht₄, hc₄, hfew, hunlink⟩
    dsimp only at ht₄ hc₄ hfew hunlink ⊢
    rw [h₁.filename, h₁.keys, ha] at hunlink
    refine (returns_pathDelete_two ht₄ hc₄
      (fun e he => (current_of_registered ht₃.toTyped (hfrom₃ e he)).mono hfew)
      (fun e he => (current_of_registered ht₃.toTyped
        (h₂.registered.congr htags e he)).mono hfew)).mono ?_
    rintro ⟨_, s₅⟩ ⟨rfl, hcat₅⟩ s' hcat ho
    rw [view_of_same (hcat.trans hcat₅) ho]
    rcases hlink with ⟨hno, -, hcat₃⟩ | ⟨hyes, -, hcat₃⟩
    · rcases hunlink with ⟨-, hnone, hcat₄⟩ | ⟨-, hcat₄⟩
      · have hcarries := (Catalogue.ext_iff_forall.mp hcat₃).1 (basename p)
        rw [hcat₄, hcat₃]
        exact .renameNone ha hb (fun k hk => hnone k ((hcarries k).mpr hk)) hno
      · rw [hcat₄, hcat₃]
        exact .renameLost ha hb hno
    · rcases hunlink with ⟨-, hnone, -⟩ | ⟨-, hcat₄⟩
      · -- the file has just got a tag
        have hcarries := (Catalogue.ext_iff_forall.mp hcat₃).1 (basename p) b
        exact absurd (hcarries.mpr (.inr ⟨rfl, List.mem_singleton_self b⟩)) (hnone b)
      · rw [hcat₄, hcat₃]
        exact .rename ha hb hyes
  refine (hrename.and (sameOpen_tagRename p q)).mono ?_
  rintro ⟨res, s'⟩ ⟨hstep, ho⟩
  exact hstep s' rfl ho

omit h hc in
theorem exists_fileGetTagsString (h : s.Typed) (hc : s.Coherent) (hn : s.files.get? n = some f) :
    ∃ names : List CStr, names.Nodup ∧ (∀ k, k ∈ names ↔ s.Carries n k) ∧
      fileGetTagsString s f = .ok (joined names, (joined names).length) := by
  obtain ⟨F, hF, -⟩ := h.fileEntry hn
  have htag (k : CStr) (t : TagId) : (k, t) ∈ F.tags.entries ↔ s.Tagged f k t := by
    rw [← (h.fileTagsUnique hF).get?_eq_some]
    simp [Store.Tagged, hF]
  have hnames : F.HasNames s F.tags.keys := by
    apply List.forall₂_map_right_iff.mpr
    apply List.forall₂_same.mpr
    intro e he
    obtain ⟨-, T, hT, hv, -⟩ := (hc hn e.1 e.2).mp ((htag e.1 e.2).mp he)
    exact ⟨T, hT, hv⟩
  refine ⟨F.tags.keys, h.fileTagsUnique hF, fun k => ?_, fileGetTagsString_eq hF hnames⟩
  simp [Table.keys, htag, Store.Carries, hn]

theorem returns_tagGetxattr_view (p name : CStr) (size : ℕ) :
    Returns (tagGetxattr env s p name size) fun r =>
      ViewStep s.view ⟨env, .getxattr p name size⟩ (.value r.1 r.2.1) r.2.2.view := by
  by_cases htags : name = attrTags
  swap
  · rw [tagGetxattr, if_neg htags]
    split_ifs with hname
    · subst hname
      exact .fsType
    · exact .noData htags hname
  subst htags
  set q := Query.of env p false with hq
  have hget : Returns (tagGetxattrListTags env s p size) fun r => r.2.2.catalogue = s.catalogue ∧
      (¬ q.Found env s.catalogue ∧ r.1 = q.refusal env ∧ r.2.1 = [] ∨
        q.Found env s.catalogue ∧ ((q.stat env).map Stat.isDir).getD false = true ∧ r.1 = -EISDIR ∧
          r.2.1 = [] ∨
        q.Found env s.catalogue ∧ ((q.stat env).map Stat.isDir).getD false = false ∧
          ∃ names : List CStr, names.Nodup ∧ (∀ k, k ∈ names ↔ s.Carries q.filename k) ∧
            r.1 = (joined names).length ∧ r.2.1 = strncpy (joined names) size) := by
    apply (returns_madePath h hc p false).bind
    rintro ⟨path, s₁⟩ h₁
    dsimp only at h₁ ⊢
    apply (returns_getattrIntra_gives h₁.tidy.toTyped (h₁.registered.labelsAll h₁.tidy.toTyped)).bind
    rintro ⟨err, st, s₂⟩ ⟨hs₂, hres, hst⟩
    dsimp only at hs₂ hres hst ⊢
    rw [h₁.query, ← hq] at hres hst
    rw [h₁.catalogue] at hres
    have ht₂ : s₂.Tidy := hs₂ ▸ tidy_getattrStore h₁.tidy
    have hc₂ : s₂.Coherent := hs₂ ▸ coherent_getattrStore h₁.tidy.toTyped h₁.coherent
    have hreg₂ : s₂.Registered path.selectedTags :=
      h₁.registered.congr (hs₂ ▸ getattrStore_tags)
    have hcat₂ : s₂.catalogue = s.catalogue :=
      (hs₂ ▸ catalogue_getattrStore : s₂.catalogue = s₁.catalogue).trans h₁.catalogue
    -- what follows only gives the path back
    have hdel {s₃ : Store} (ht₃ : s₃.Tidy) (hc₃ : s₃.Coherent) (hreg₃ : s₃.Registered path.selectedTags)
        (hcat₃ : s₃.catalogue = s.catalogue) :
        Returns (pathDelete env s₃ path) fun s₄ => s₄.catalogue = s.catalogue :=
      (sat_deleted ht₃ hc₃ fun e he => current_of_registered ht₃.toTyped (hreg₃ e he)).mono
        fun s₄ hd => hd.catalogue.trans hcat₃
    split_ifs with herr hdir
    · refine (hdel ht₂ hc₂ hreg₂ hcat₂).bind fun s₄ h₄ => ⟨h₄, .inl ?_⟩
      obtain ⟨-, h0⟩ | ⟨hno, hres⟩ := hres
      · exact absurd h0 herr
      · exact ⟨hno, hres, rfl⟩
    · refine (hdel ht₂ hc₂ hreg₂ hcat₂).bind fun s₄ h₄ => ⟨h₄, .inr (.inl ?_)⟩
      obtain ⟨hyes, -⟩ | ⟨-, hres⟩ := hres
      · exact ⟨hyes, hst ▸ hdir, rfl, rfl⟩
      · exact absurd (hres ▸ refusal_neg q) (by omega)
    · have ht₃ : (fileGetOrCreate s₂ path.filename).2.Tidy := tidy_fileGetOrCreate ht₂
      have hc₃ : (fileGetOrCreate s₂ path.filename).2.Coherent :=
        coherent_fileGetOrCreate ht₂.toTyped hc₂
      obtain ⟨names, hnd, hmem, hrun⟩ :=
        exists_fileGetTagsString (n := path.filename) ht₃.toTyped hc₃ fileGetOrCreate_get?
      rw [hrun, ok_bind]
      refine (hdel ht₃ hc₃ (hreg₂.congr fileGetOrCreate_tags)
        (catalogue_fileGetOrCreate.trans hcat₂)).bind fun s₄ h₄ => ⟨h₄, .inr (.inr ?_)⟩
      have hcarries : ∀ k, (fileGetOrCreate s₂ path.filename).2.Carries path.filename k ↔
          s.Carries path.filename k :=
        (Catalogue.ext_iff_forall.mp (catalogue_fileGetOrCreate.trans hcat₂)).1 path.filename
      have hname : q.filename = path.filename := h₁.filename.symm
      obtain ⟨hyes, -⟩ | ⟨-, hres⟩ := hres
      · refine ⟨hyes, by simpa [← hst] using hdir, names, hnd, fun k => ?_, rfl, rfl⟩
        rw [hmem, hcarries, hname]
      · exact absurd (hres ▸ refusal_neg q) (by omega)
  have hrun : tagGetxattr env s p attrTags size = tagGetxattrListTags env s p size := if_pos rfl
  have hsame : Returns (tagGetxattrListTags env s p size) fun r => SameOpen s r.2.2 :=
    hrun ▸ sameOpen_tagGetxattr p attrTags size
  rw [hrun]
  refine (hget.and hsame).mono ?_
  rintro ⟨res, value, s'⟩ ⟨⟨hcat, hcases⟩, ho⟩
  dsimp only at hcat hcases ⊢
  rw [view_of_same hcat ho]
  obtain ⟨hno, rfl, rfl⟩ | ⟨hyes, hdir, rfl, rfl⟩ | ⟨hyes, hfile, names, hnd, hmem, rfl, rfl⟩ := hcases
  · exact .tagsRefused hq hno
  · exact .tagsDir hq hyes hdir
  · exact .tags hq hyes hfile hnd hmem

end Paths

end TagFilesystem.Fuse
