import TagFilesystem.FuseLowlevel.Refinement

namespace TagFilesystem.FuseLowlevel

variable {env : Env} {s s' : Store} {k n : CStr} {f : FileId} {C : Catalogue CStr CStr}

/-- The store after some tags of a file have changed. -/
structure Turned (s : Store) (C : Catalogue CStr CStr) (s' : Store) : Prop where
  sound : s'.links.Sound
  inodes : s'.inodes = s.inodes
  files : s'.files = s.files
  catalogue : s'.catalogue = C

namespace Turned

theorem view (h : Turned s C s') : s'.view = s.view.set C := by
  rw [Store.view, h.catalogue, node_congr h.inodes]
  rfl

theorem tagFile (h : Turned s C s') (hf : s.files.get? n = some f) :
    Returns (tagFile s' (tagGet s' k) f) (Turned s (C.tag n [k])) := by
  have hf' : s'.files.get? n = some f := h.files ▸ hf
  refine ((returns_tagFile' (c := False) hf').and (returns_tagFile.and
    (returns_tagFile_catalogue h.sound hf'))).mono ?_
  rintro s'' ⟨⟨hu, hfiles⟩, ⟨hinodes, -⟩, hcat⟩
  exact ⟨hu.sound h.sound, hinodes.trans h.inodes, hfiles.trans h.files, h.catalogue ▸ hcat⟩

theorem untagFile (h : Turned s C s') (hf : s.files.get? n = some f) :
    Returns (untagFile s' (tagGet s' k) f) (Turned s (C.strip n [k])) := by
  have hf' : s'.files.get? n = some f := h.files ▸ hf
  refine ((returns_untagFile' (c := False) hf').and (returns_untagFile.and
    (returns_untagFile_catalogue h.sound hf'))).mono ?_
  rintro s'' ⟨⟨hu, hfiles⟩, ⟨hinodes, -⟩, hcat⟩
  exact ⟨hu.sound h.sound, hinodes.trans h.inodes, hfiles.trans h.files, h.catalogue ▸ hcat⟩

end Turned

theorem turned_refl (hs : s.Sound) : Turned s s.catalogue s := ⟨hs.links, rfl, rfl, rfl⟩

theorem follows_link (h : s.Orderly) (number newparent : UInt64) (newname : CStr) :
    Returns (tagLink env s number newparent newname)
      (Follows s ⟨env, .link number newparent newname⟩) := by
  unfold tagLink
  apply returns_readInode.bind
  rintro I ⟨i, hi, hI⟩
  obtain ⟨hnum, -⟩ := h.node_isSome hi hI
  have hnode : s.node number = I.node := node_of_inodeGet hi hI
  split_ifs with hdir
  · exact fun _ => .linkRefused (hnode.trans (I.node_directory hdir)) (by simp)
  · obtain ⟨m, realpath, hx, hm, -⟩ := h.formed.fileNode hI (by simpa using hdir)
    have hfile := hnode.trans hx
    refine returns_deref.bind fun name hname => ?_
    obtain rfl := Option.some.inj (hm.symm.trans hname)
    split_ifs with hne
    · refine fun _ => .linkRefused hfile fun q hq => hne ?_
      cases hq
      rfl
    · obtain rfl : newname = m := not_not.mp hne
      apply returns_readInode.bind
      rintro P ⟨p, hp, hP⟩
      have hPnode : s.node newparent = P.node := node_of_inodeGet hp hP
      split_ifs with hPdir
      · obtain ⟨name', q, hx', -⟩ := h.formed.fileNode hP hPdir
        exact fun _ => .linkNotDirectory hfile (hPnode.trans hx')
      · -- the record of the file is there
        obtain ⟨m', f, hm', hf, -⟩ := h.described.file hI (by simpa using hdir)
        obtain rfl := Option.some.inj (hm.symm.trans hm')
        have hget : fileGetOrCreate env (nextGenNumber s).2 newname =
            .ok (f, (nextGenNumber s).2) := by
          have hf' : (nextGenNumber s).2.files.get? newname = some f := hf
          simp only [fileGetOrCreate, hf']
        dsimp only
        rw [hget]
        refine returns_deref.bind fun k hk => ?_
        have hstart : Turned s s.catalogue (nextGenNumber s).2 := ⟨h.sound.links, rfl, rfl, rfl⟩
        apply (hstart.tagFile hf).bind
        intro s₂ hturned _
        have hPdir' : P.isDirectory = true := by simpa using hPdir
        obtain ⟨tags, htags⟩ := List.getLast?_eq_some_iff.mp
          ((h.paths.directory hP hPdir').1.name.symm.trans hk)
        show ViewStep s.view _ [.entry I.number _ _] s₂.view
        rw [hturned.view, hnum]
        have hdirectory : s.node newparent = some (.directory (tags ++ [k])) := by
          rw [hPnode, P.node_directory hPdir', htags]
        have hused : s.catalogue.used k :=
          h.used_of_mem hP (P.node_directory hPdir') (by simp [Node.tags, htags])
        exact .link hfile hdirectory hused

theorem follows_unlink (h : s.Orderly) (parent : UInt64) (name : CStr) :
    Returns (tagUnlink s parent name) (Follows s ⟨env, .unlink parent name⟩) := by
  unfold tagUnlink
  split_ifs with hroot
  · intro hmax
    refine .unlinkRefused fun k hk => ?_
    obtain ⟨i, I, hI, hnum, hx⟩ := (node_eq_some h.sound.indexed hmax).mp hk
    have hone := hnum.trans hroot
    have hdir := h.root_directory hmax hI hone
    have hnil := (h.tag_eq_nil hmax hI hdir).mpr hone
    rw [I.node_directory hdir, hnil] at hx
    cases hx
  · split
    · next hf =>
      refine fun _ => .unlinkNone fun k => ?_
      rintro ⟨f, t, hf', -⟩
      have hnone : s.files.get? name = none := hf
      rw [hnone] at hf'
      cases hf'
    · next f hf =>
      apply returns_readInode.bind
      rintro P ⟨p, hp, hP⟩
      have hnode : s.node parent = P.node := node_of_inodeGet hp hP
      obtain ⟨hnum, -⟩ := h.node_isSome hp hP
      split_ifs with hdir
      · obtain ⟨m, q, hx, -⟩ := h.formed.fileNode hP hdir
        refine fun _ => .unlinkRefused fun k hk => ?_
        have hnode' : s.node parent = some (.directory [k]) := hk
        rw [hnode, hx] at hnode'
        cases hnode'
      · have hdir' : P.isDirectory = true := by simpa using hdir
        have hPnode := hnode.trans (P.node_directory hdir')
        refine returns_deref.bind fun sel hsel => ?_
        obtain ⟨-, hlive, hkeys⟩ := h.selects hP hsel
        have hlen : P.tag.length = sel.size := by
          rw [← hkeys, Table.keys, List.length_map, Table.size]
        split_ifs with hmany
        · refine fun _ => .unlinkRefused fun k hk => ?_
          have hnode' : s.node parent = some (.directory [k]) := hk
          rw [hPnode, Option.some.injEq, Node.directory.injEq] at hnode'
          rw [hnode', List.length_singleton] at hlen
          omega
        · refine returns_deref.bind fun k hk => ?_
          -- the directory has one tag, its own, and that is registered
          have htag : P.tag = [k] := by
            obtain ⟨tags, htags⟩ := List.getLast?_eq_some_iff.mp
              ((h.paths.directory hP hdir').1.name.symm.trans hk)
            rw [htags, List.length_append] at hlen
            obtain rfl : tags = [] := List.eq_nil_of_length_eq_zero (by simp at hlen; omega)
            exact htags
          obtain ⟨e, he, rfl⟩ := List.mem_map.mp (show k ∈ sel.keys by rw [hkeys, htag]; simp)
          obtain ⟨t, -, hreg⟩ := hlive e he
          have huntag := (turned_refl h.sound).untagFile (k := e.1) hf
          have hget : tagGet s e.1 = some t := hreg
          rw [hget] at huntag ⊢
          refine huntag.bind fun s₁ hturned _ => ?_
          show ViewStep s.view _ [.err 0] s₁.view
          rw [hturned.view]
          exact .unlink (hPnode.trans (by rw [htag]))

theorem returns_untagLoop (h : Turned s C s') (hf : s.files.get? n = some f) (I : Inode) :
    Returns (forEach (List.range I.ntag) (fun s i => do
      let tag ← I.tagAt i
      untagFile s (tagGet s tag) f) s') (Turned s (C.strip n (I.tag.take I.ntag))) := by
  refine sat_forRange (fun j s' => Turned s (C.strip n (I.tag.take j)) s') ?_ (by simpa using h)
  rintro j s₁ - hj
  refine (sat_tagAt (E := fun _ => True) trivial I j).bind fun k hk => ?_
  refine (hj.untagFile hf).mono fun s₂ h₂ => ?_
  rw [Catalogue.strip_strip] at h₂
  rw [List.take_add_one, hk]
  exact h₂

theorem returns_tagLoop (h : Turned s C s') (hf : s.files.get? n = some f) (I : Inode) :
    Returns (forEach (List.range I.ntag) (fun s i => do
      let tag ← I.tagAt i
      tagFile s (tagGet s tag) f) s') (Turned s (C.tag n (I.tag.take I.ntag))) := by
  refine sat_forRange (fun j s' => Turned s (C.tag n (I.tag.take j)) s') ?_ (by simpa using h)
  rintro j s₁ - hj
  refine (sat_tagAt (E := fun _ => True) trivial I j).bind fun k hk => ?_
  refine (hj.tagFile hf).mono fun s₂ h₂ => ?_
  rw [Catalogue.tag_tag] at h₂
  rw [List.take_add_one, hk]
  exact h₂

theorem follows_rename (h : s.Orderly) (parent : UInt64) (name : CStr) (newparent : UInt64)
    (newname : CStr) : Returns (tagRename s parent name newparent)
      (Follows s ⟨env, .rename parent name newparent newname⟩) := by
  unfold tagRename
  split_ifs with hsame
  · exact fun _ => .renameRefused (.inl hsame)
  · cases hop : inodeGet s parent with
    | none => exact fun _ => .renameUnknown (.inl (node_none hop))
    | some op =>
      cases hnp : inodeGet s newparent with
      | none => exact fun _ => .renameUnknown (.inr (.inl (node_none hnp)))
      | some np =>
        cases hf : fileGet s name with
        | none =>
          refine fun _ => .renameUnknown (.inr (.inr fun k => ?_))
          rintro ⟨f, t, hf', -⟩
          have hnone : s.files.get? name = none := hf
          rw [hnone] at hf'
          cases hf'
        | some f =>
          refine returns_readInode_some.bind fun O hO => returns_readInode_some.bind fun N hN => ?_
          obtain ⟨hOnum, x, -, hx, hxtake, hxlen⟩ := h.node_isSome hop hO
          obtain ⟨hNnum, y, hNy, hy, hytake, hylen⟩ := h.node_isSome hnp hN
          have hf' : s.files.get? name = some f := hf
          rw [hOnum, hNnum, hxlen, hylen]
          split_ifs with hbad
          · refine fun _ => .renameRefused (.inr ?_)
            rcases hbad with hbad | hbad | hbad | hbad
            · exact .inl hbad
            · exact .inr (.inl hbad)
            · exact .inr (.inr (.inl ⟨x, hx, hbad⟩))
            · exact .inr (.inr (.inr ⟨y, hy, hbad⟩))
          · push Not at hbad
            rw [← hxlen, ← hylen]
            refine (returns_untagLoop (turned_refl h.sound) hf' O).bind fun s₁ h₁ => ?_
            refine (returns_tagLoop h₁ hf' N).bind fun s₂ h₂ _ => ?_
            rw [hxtake, hytake] at h₂
            show ViewStep s.view _ [.err 0] s₂.view
            rw [h₂.view]
            exact .rename hx hy hsame hbad.1 hbad.2.1 hbad.2.2.1 hbad.2.2.2
              fun k hk => h.used_of_mem hN hNy hk

end TagFilesystem.FuseLowlevel
