import TagFilesystem.Fuse.LinkUnlink
import TagFilesystem.Fuse.Rename
import TagFilesystem.Fuse.Listing

namespace TagFilesystem.Fuse

variable {env : Env} {s₀ s s' : Store} {t t' : TagId} {T T' : Tag} {f₀ : FileId}
  {a b c f k n : CStr} {ks P P' : List CStr} {sel : HashTable TagId} {R : CStr → CStr → Prop}
  {E : Fault → Prop}

/-- `s` is `s₀` after the files have got the tags `R`, whose names were free. The names `P` may be
registered although no file is related to them. -/
structure Extends (s₀ : Store) (R : CStr → CStr → Prop) (P : List CStr) (s : Store) : Prop where
  wellFormed : s.WellFormed
  carries : ∀ {n k}, s.Carries n k ↔ s₀.Carries n k ∨ R n k
  free : ∀ {n k}, R n k → s₀.tags.get? k = none
  kept : ∀ {k t}, s₀.tags.get? k = some t →
    s.tags.get? k = some t ∧ s.tagHeap.get? t = s₀.tagHeap.get? t
  fresh : ∀ {k t}, s₀.tags.get? k = none → s.tags.get? k = some t →
    k ∈ P ∨ s.InUse t ∧ ∃ n, R n k

namespace Extends

theorem refl (hw : s.WellFormed) : Extends s (fun _ _ => False) [] s where
  wellFormed := hw
  carries := by simp
  free h := h.elim
  kept hk := ⟨hk, rfl⟩
  fresh hno hk := by
    rw [hno] at hk
    cases hk

theorem congr {R' : CStr → CStr → Prop} (h : Extends s₀ R P s) (hR : ∀ n k, R n k ↔ R' n k) :
    Extends s₀ R' P s := by
  have he : R = R' := by
    funext n k
    exact propext (hR n k)
  exact he ▸ h

theorem registered (h : Extends s₀ R P s) (hR : R n k) : ∃ t, s.tags.get? k = some t := by
  obtain ⟨t, T, hk, -⟩ := (h.wellFormed.coherent.carries_iff h.wellFormed.tidy.toTyped).mp
    ⟨n, h.carries.mpr (.inr hR)⟩
  exact ⟨t, hk⟩

theorem ne_of_free (h : Extends s₀ R P s) (hk : s₀.tags.get? k = some t)
    (hc : s₀.tags.get? c = none) (hk' : s.tags.get? c = some t') : t ≠ t' := by
  rintro rfl
  obtain ⟨T, hT, hv⟩ := h.wellFormed.tidy.tagEntry hk'
  have hv' := h.wellFormed.tidy.value_of_get? (h.kept hk).1 hT
  rw [← hv, hv', hk] at hc
  cases hc

theorem made (h : Extends s₀ R P s) (hm : Made s ks sel s') (hks : ∀ k ∈ ks, s₀.tags.get? k = none)
    (hP : ∀ k ∈ P, k ∈ P') (hks' : ∀ k ∈ ks, k ∈ P' ∨ ∃ n, R n k) : Extends s₀ R P' s' where
  wellFormed := hm.wellFormed h.wellFormed
  carries := hm.carries.trans h.carries
  free := h.free
  kept {k t} hk := by
    obtain ⟨hk₁, hheap⟩ := h.kept hk
    obtain ⟨T, hT, hv⟩ := h.wellFormed.tidy.tagEntry hk₁
    refine ⟨hm.kept hk₁, ?_⟩
    have hno : occurrences sel.entries t = 0 := by
      refine occurrences_eq_zero fun e he het => ?_
      have hek := hm.entry he
      rw [het] at hek
      obtain ⟨T₁, hT₁, hv₁⟩ := hm.typed.tagEntry hek
      have hv₂ := hm.typed.value_of_get? (hm.kept hk₁) hT₁
      have hmem : e.1 ∈ ks := hm.keys ▸ List.mem_map_of_mem he
      rw [← hv₁, hv₂] at hmem
      rw [hks k hmem] at hk
      cases hk
    rw [hm.old hT, ← hheap, hT, hno]
    simp
  fresh {k t} hno hk := by
    rcases hm.only hk with hk₁ | ⟨hmem, hk₁, -⟩
    · exact (h.fresh hno hk₁).imp (hP k) fun hu => ⟨hm.inUse hu.1, hu.2⟩
    · refine (hks' k hmem).imp id ?_
      rintro ⟨n, hR⟩
      obtain ⟨t', ht'⟩ := h.registered hR
      rw [hk₁] at ht'
      cases ht'

theorem putInUse (h : Extends s₀ R P s) (hc : s₀.tags.get? c = none) (hk : s.tags.get? c = some t)
    (hT : s.tagHeap.get? t = some T) : Extends s₀ R P (s.writeTag t { T with inUse := true }) where
  wellFormed := by
    refine h.wellFormed.of_tags (h.wellFormed.tidy.touchTag hT rfl rfl fun _ => rfl)
      (h.wellFormed.coherent.touchTag hT rfl rfl) rfl fun {t' T'} hT' => ?_
    obtain ⟨rfl, rfl⟩ | ⟨-, hT'⟩ := Heap.get?_write_cases hT'
    · exact ⟨T, hT, rfl⟩
    · exact ⟨T', hT', rfl⟩
  carries := h.carries
  free := h.free
  kept {k t'} hk' := by
    obtain ⟨hk₁, hheap⟩ := h.kept hk'
    refine ⟨hk₁, ?_⟩
    rw [Store.writeTag_tagHeap, Heap.get?_write_ne (h.ne_of_free hk' hc hk), hheap]
  fresh {k t'} hno hk' := by
    refine (h.fresh hno hk').imp_right fun hu => ⟨?_, hu.2⟩
    obtain ⟨T', hT', hu'⟩ := hu.1
    by_cases ht : t' = t
    · rw [ht]
      exact ⟨_, Heap.get?_write_self hT, rfl⟩
    · exact ⟨T', by rw [Store.writeTag_tagHeap, Heap.get?_write_ne ht, hT'], hu'⟩

theorem attached {p : Path} (h : Extends s₀ R [c] s) (hc : s₀.tags.get? c = none)
    (hk : s.tags.get? c = some t) (ha : Attached (linkStore env s p) [(c, t)] s')
    (hcoh : s'.Coherent) (hrel : ∀ n k, s'.Carries n k ↔ s.Carries n k ∨ n = f ∧ k = c) :
    Extends s₀ (fun n k => R n k ∨ n = f ∧ k = c) [] s' where
  wellFormed := ha.wellFormed (wellFormed_linkStore h.wellFormed) hcoh
  carries {n k} := by rw [hrel, h.carries, or_assoc]
  free {n k} hR := by
    rcases hR with hR | ⟨-, rfl⟩
    · exact h.free hR
    · exact hc
  kept {k t'} hk' := by
    obtain ⟨hk₁, hheap⟩ := h.kept hk'
    refine ⟨by rw [ha.tags, linkStore_tags, hk₁], ?_⟩
    have hne := h.ne_of_free hk' hc hk
    rw [ha.object (by simpa using Ne.symm hne), linkStore_tagHeap, hheap]
  fresh {k t'} hno hk' := by
    rw [ha.tags, linkStore_tags] at hk'
    obtain ⟨T, hT, -⟩ := h.wellFormed.tidy.tagEntry hk'
    rcases h.fresh hno hk' with hmem | ⟨hu, n, hR⟩
    · obtain rfl := List.mem_singleton.mp hmem
      obtain rfl : t = t' := Option.some.inj (hk.symm.trans hk')
      exact .inr ⟨ha.inUse_of_mem (T := T) (e := (k, t)) (by simp) (by simpa using hT),
        f, .inr ⟨rfl, rfl⟩⟩
    · have hu' : (linkStore env s p).InUse t' := by simpa [Store.InUse] using hu
      exact .inr ⟨ha.inUse hu', n, .inl hR⟩

theorem unlinked (h : Extends s₀ R [] s) (hw : s₀.WellFormed) (hc : s₀.tags.get? c = none)
    (hk : s.tags.get? c = some t) (hn : s.files.get? f = some f₀)
    (hu : Unlinked s f₀ [(c, t)] s') : Extends s₀ (fun n k => R n k ∧ ¬(n = f ∧ k = c)) [] s' := by
  have hnone (n : CStr) : ¬ s₀.Carries n c := by
    intro hcar
    obtain ⟨t', T, hk', -⟩ := (hw.coherent.carries_iff hw.tidy.toTyped).mp ⟨n, hcar⟩
    rw [hc] at hk'
    cases hk'
  have hcar {n k : CStr} : s'.Carries n k ↔ s₀.Carries n k ∨ R n k ∧ ¬(n = f ∧ k = c) := by
    have hlost : s'.Carries n k ↔ s.Carries n k ∧ ¬(n = f ∧ k = c) := by
      have hc' : (∃ t', (k, t') ∈ [(c, t)]) ↔ k = c := by simp
      rw [carries_lost h.wellFormed.tidy.toTyped hu.files (fun _ _ _ => hu.tagged) hn, hc']
    rw [hlost, h.carries, or_and_right]
    refine or_congr_left (and_iff_left_of_imp fun h₀ => ?_)
    rintro ⟨-, rfl⟩
    exact hnone n h₀
  refine ⟨hu.wellFormed h.wellFormed, hcar, fun hR => h.free hR.1, fun {k t'} hk' => ?_,
    fun {k t'} hno hk' => .inr ?_⟩
  · obtain ⟨hk₁, hheap⟩ := h.kept hk'
    have hne : ∀ e ∈ [(c, t)], e.2 ≠ t' := by simpa using (h.ne_of_free hk' hc hk).symm
    exact ⟨hu.name hk₁ hne, (hu.object hne).trans hheap⟩
  · have hk₁ := hu.fewer.tags hk'
    obtain ⟨hu₁, m, hR⟩ := (h.fresh hno hk₁).resolve_left (by simp)
    obtain ⟨T', hT', -⟩ := hu.tidy.tagEntry hk'
    have hu' : s'.InUse t' := by
      obtain ⟨T, hT, -, huse, -⟩ := hu.fewer.tag hT'
      obtain ⟨T₁, hT₁, hu₁⟩ := hu₁
      cases hT.symm.trans hT₁
      exact ⟨T', hT', huse ▸ hu₁⟩
    refine ⟨hu', ?_⟩
    by_cases hkc : k = c
    · -- the tag is still registered, so another file has it
      subst hkc
      obtain rfl : t = t' := Option.some.inj (hk.symm.trans hk₁)
      obtain ⟨n, hn'⟩ := (hu.coherent.carries_iff hu.tidy.toTyped).mpr
        ⟨t, T', hk', hT', hu.full hk' hT' ⟨_, List.mem_singleton_self _, rfl⟩⟩
      exact ⟨n, (hcar.mp hn').resolve_left (hnone n)⟩
    · exact ⟨m, hR, fun he => hkc he.2⟩

end Extends

/-- In use, and referenced once more than for the registry. -/
def Store.Firm (s : Store) (t : TagId) : Prop :=
  ∃ T, s.tagHeap.get? t = some T ∧ T.inUse = true ∧ 2 ≤ T.refCount

theorem Store.Firm.inUse (h : s.Firm t) : s.InUse t := by
  obtain ⟨T, hT, hu, -⟩ := h
  exact ⟨T, hT, hu⟩

theorem Made.firm (h : Made s ks sel s') (hf : s.Firm t) : s'.Firm t := by
  obtain ⟨T, hT, hu, hr⟩ := hf
  refine ⟨_, h.old hT, hu, ?_⟩
  dsimp only
  omega

theorem Attached.firm {l : Held} (h : Attached s l s') (hf : s.Firm t) : s'.Firm t := by
  obtain ⟨T, hT, hu, hr⟩ := hf
  obtain ⟨T', hT', -, hr', hu'⟩ := h.tag hT
  exact ⟨T', hT', hu'.mpr (.inl hu), hr' ▸ hr⟩

theorem Extends.firm (h : Extends s₀ R [] s) (hR : R n c) (hm : Made s [c] sel s')
    (hsel : sel.entries = [(c, t)]) : s.tags.get? c = some t ∧ s'.Firm t := by
  obtain ⟨t', hk⟩ := h.registered hR
  have hk' : s'.tags.get? c = some t := hm.entry (by rw [hsel]; simp)
  obtain rfl : t' = t := Option.some.inj ((hm.kept hk).symm.trans hk')
  obtain ⟨⟨T, hT, hu⟩, -⟩ := (h.fresh (h.free hR) hk).resolve_left (by simp)
  have := h.wellFormed.counted hk hT
  refine ⟨hk, _, hm.old hT, hu, ?_⟩
  rw [hsel, occurrences_cons, occurrences_nil, if_pos rfl]
  dsimp only
  omega

namespace Extends

theorem pathLink {pfrom pto : Path} (h : Extends s₀ R [c] s) (hc : s₀.tags.get? c = none)
    (hk : s.tags.get? c = some t) (hto : pto.held = [(c, t)])
    (hfrom : ∀ e ∈ pfrom.held, s.tags.get? e.1 = some e.2) (hacc : Accepts env s pfrom) :
    Sat E (Fuse.pathLink env s pfrom pto) fun r => r.1 = 0 ∧
      Extends s₀ (fun n k => R n k ∨ n = pfrom.filename ∧ k = c) [] r.2 ∧ r.2.tags = s.tags ∧
      r.2.InUse t ∧ ∀ t', s.Firm t' → r.2.Firm t' := by
  have ht := h.wellFormed.tidy.toTyped
  have hto' : ∀ e ∈ pto.held, s.tags.get? e.1 = some e.2 := by simpa [hto] using hk
  have hlive : ∀ e ∈ pto.held, ∃ T, s.tagHeap.get? e.2 = some T := by
    intro e he
    obtain ⟨T, hT, -⟩ := ht.tagEntry (hto' e he)
    exact ⟨T, hT⟩
  refine ((sat_pathLink ht (fun e he => ht.tagEntry (hfrom e he)) hlive).and
    (sat_pathLink_relation ht h.wellFormed.coherent (fun e he => ht.tagEntry (hfrom e he))
      hto')).mono ?_
  rintro ⟨res, s'⟩ ⟨hlink, hcoh, hrel⟩
  dsimp only at hlink hcoh hrel ⊢
  obtain ⟨h0, -, ha⟩ := hlink.resolve_left fun hno => hno.2.1 hacc
  rw [hto] at ha
  have hrel' (n k : CStr) : s'.Carries n k ↔ s.Carries n k ∨ n = pfrom.filename ∧ k = c := by
    rw [hrel h0, hto]
    simp
  refine ⟨h0, h.attached hc hk ha hcoh hrel', ha.tags.trans linkStore_tags, ?_, fun t' hf => ?_⟩
  · obtain ⟨T, hT, -⟩ := ht.tagEntry hk
    exact ha.inUse_of_mem (T := T) (e := (c, t)) (by simp) (by simpa using hT)
  · exact ha.firm (by simpa [Store.Firm] using hf)

theorem pathUnlink {p : Path} (h : Extends s₀ R [] s) (hw : s₀.WellFormed)
    (hR : R p.filename c) (hk : s.tags.get? c = some t) (hp : p.held = [(c, t)]) (hf : s.Firm t) :
    Sat E (Fuse.pathUnlink env s p) fun r => r.1 = 0 ∧
      Extends s₀ (fun n k => R n k ∧ ¬(n = p.filename ∧ k = c)) [] r.2 ∧ r.2.InUse t ∧
      ∀ t', t' ≠ t → s.InUse t' → r.2.InUse t' := by
  have ht := h.wellFormed.tidy
  obtain ⟨f₀, hn, -⟩ := h.carries.mpr (.inr hR)
  obtain ⟨T, hT, hu, hr⟩ := hf
  have hl : ∀ e ∈ p.held, s.tags.get? e.1 = some e.2 := by simpa [hp] using hk
  have hlive : Sat E (Fuse.pathUnlink env s p) fun r => r.2.InUse t := by
    refine (sat_pathUnlink_single ht.toTyped hp hn hT (ht.value_of_get? hk hT)).mono fun r hr' => ?_
    obtain ⟨T', hT'⟩ := hr'.2 hr
    exact ⟨T', hT', (hr'.1.object hT').2.1.trans hu⟩
  apply (hlive.and (sat_unlinked ht h.wellFormed.coherent hn hl)).mono
  rintro ⟨res, s'⟩ ⟨hlive, h0, hu'⟩
  dsimp only at hlive h0 hu' ⊢
  rw [hp] at hu'
  refine ⟨h0, h.unlinked hw (h.free hR) hk hn hu', hlive, fun t' hne hin => ?_⟩
  obtain ⟨T', hT', hin⟩ := hin
  exact ⟨T', by rw [hu'.object (by simpa using hne.symm), hT'], hin⟩

section

variable (h : Extends s₀ R [] s) (hf : IsName f)
include h hf

theorem tagLink (hc : IsName c) (hfree : s₀.tags.get? c = none)
    (hreg : env.regular (appendDir env.realdirpath f) = true) :
    Sat E (Fuse.tagLink env s (dirPath [] ++ slash :: f) (dirPath [c] ++ slash :: f)) fun r =>
      r.1 = 0 ∧ Extends s₀ (fun n k => R n k ∨ n = f ∧ k = c) [] r.2 := by
  have hds : ∀ d ∈ [c], IsName d := by simpa using hc
  apply (sat_pathCreate_child h.wellFormed.tidy.toTyped (by simp) hf).bind
  rintro ⟨pfrom, s₁⟩ ⟨hpfrom, hm₁⟩
  dsimp only at hpfrom hm₁ ⊢
  have h₁ : Extends s₀ R [] s₁ := h.made hm₁ (by simp) (by simp) (by simp)
  apply (sat_pathCreate_child h₁.wellFormed.tidy.toTyped hds hf).bind
  rintro ⟨pto, s₂⟩ ⟨hpto, hm₂⟩
  dsimp only at hpto hm₂ ⊢
  have h₂ : Extends s₀ R [c] s₂ := h₁.made hm₂ (by simpa using hfree) (by simp) (by simp)
  obtain ⟨t, hsel⟩ := held_of_keys hm₂.keys
  have hk : s₂.tags.get? c = some t := hm₂.entry (by rw [hsel]; simp)
  have hnil : pfrom.held = [] := by
    have hkeys := hm₁.keys
    simpa [Table.keys, Path.held] using hkeys
  -- the tag is put in use
  refine Sat.bind (P := fun r : ℤ × Store => Extends s₀ R [c] r.2 ∧ r.2.tags = s₂.tags) ?_ ?_
  · obtain ⟨T, hT, -⟩ := h₂.wellFormed.tidy.tagEntry hk
    have hdir : pto.virtdirpath = dirPath [c] := hpto.virtdirpath (by simp)
    have hbase : basename (dirPath [c]) = c := by simpa [dirPath] using basename_child hc []
    rw [hdir]
    obtain ⟨r, -, hrun⟩ | ⟨t', T', -, hk', hT', -, hrun⟩ | ⟨-, hk', -⟩ :=
      tagMkdir_cases h₂.wellFormed.tidy.toTyped (dirPath [c])
    · rw [hrun]
      exact ⟨h₂, rfl⟩
    · rw [hrun]
      exact ⟨h₂.putInUse hfree (hbase ▸ hk') hT', rfl⟩
    · rw [hbase, hk] at hk'
      cases hk'
  rintro ⟨_, s₃⟩ ⟨h₃, htags₃⟩
  dsimp only at h₃ htags₃ ⊢
  have hacc : Accepts env s₃ pfrom := by
    unfold Accepts
    rw [hpfrom.realpath, if_pos hreg, hnil]
    simp
  apply (h₃.pathLink (t := t) hfree (htags₃ ▸ hk) hsel (by simp [hnil]) hacc).bind
  rintro ⟨res, s₄⟩ ⟨h0, h₄, -, hu, -⟩
  dsimp only at h0 h₄ hu ⊢
  rw [hpfrom.filename] at h₄
  refine (pathDelete_inUse (by simp [hnil])).bind fun s₅ hs₅ => ?_
  subst hs₅
  refine (pathDelete_inUse (by simpa [Path.held, hsel] using hu)).bind fun s₆ hs₆ => ?_
  subst hs₆
  exact ⟨h0, h₄⟩

theorem tagRename (hw : s₀.WellFormed) (ha : IsName a) (hb : IsName b) (hab : a ≠ b)
    (hfree : s₀.tags.get? b = none) (hreg : env.regular (appendDir env.realdirpath f) = true)
    (hR : R f a) :
    Sat E (Fuse.tagRename env s (dirPath [a] ++ slash :: f) (dirPath [b] ++ slash :: f)) fun r =>
      r.1 = 0 ∧ Extends s₀ (fun n k => (R n k ∨ n = f ∧ k = b) ∧ ¬(n = f ∧ k = a)) [] r.2 := by
  have hda : ∀ d ∈ [a], IsName d := by simpa using ha
  have hdb : ∀ d ∈ [b], IsName d := by simpa using hb
  have hfree_a := h.free hR
  apply (sat_pathCreate_child h.wellFormed.tidy.toTyped hda hf).bind
  rintro ⟨pa, s₁⟩ ⟨hpa, hm₁⟩
  dsimp only at hpa hm₁ ⊢
  obtain ⟨ta, hsela⟩ := held_of_keys hm₁.keys
  have hfirm := (h.firm hR hm₁ hsela).2
  have h₁ : Extends s₀ R [] s₁ := h.made hm₁ (by simpa using hfree_a) (by simp)
    (by simpa using ⟨f, hR⟩)
  apply (sat_pathCreate_child h₁.wellFormed.tidy.toTyped hdb hf).bind
  rintro ⟨pb, s₂⟩ ⟨-, hm₂⟩
  dsimp only at hm₂ ⊢
  obtain ⟨tb, hselb⟩ := held_of_keys hm₂.keys
  have h₂ : Extends s₀ R [b] s₂ := h₁.made hm₂ (by simpa using hfree) (by simp) (by simp)
  have hka : s₂.tags.get? a = some ta := hm₂.kept (hm₁.entry (by rw [hsela]; simp))
  have hkb : s₂.tags.get? b = some tb := hm₂.entry (by rw [hselb]; simp)
  have hname : pa.filename = f := hpa.filename
  have hsize : ¬(pa.selectedTags.size ≠ 1 ∨ pb.selectedTags.size ≠ 1) := by
    simp [Table.size, hsela, hselb]
  have hacc : Accepts env s₂ pa := by
    unfold Accepts
    rw [hpa.realpath, if_pos hreg, hname]
    simpa [Path.held, hsela] using h₂.carries.mpr (.inr hR)
  rw [if_neg hsize]
  apply (h₂.pathLink hfree hkb hselb (by simpa [Path.held, hsela] using hka) hacc).bind
  rintro ⟨_, s₃⟩ ⟨-, h₃, htags₃, hub, hfirm₃⟩
  dsimp only at h₃ htags₃ hub hfirm₃ ⊢
  rw [hname] at h₃
  have hka₃ : s₃.tags.get? a = some ta := htags₃ ▸ hka
  refine (h₃.pathUnlink hw (by rw [hname]; exact .inl hR) hka₃ hsela
    (hfirm₃ ta (hm₂.firm hfirm))).bind ?_
  rintro ⟨_, s₄⟩ ⟨-, h₄, hua, hother⟩
  dsimp only at h₄ hua hother ⊢
  rw [hname] at h₄
  have hne : tb ≠ ta := by
    rintro rfl
    obtain ⟨T, hT, hv⟩ := h₃.wellFormed.tidy.tagEntry hka₃
    exact hab (hv.symm.trans (h₃.wellFormed.tidy.value_of_get? (htags₃ ▸ hkb) hT))
  refine (pathDelete_inUse (by simpa [Path.held, hsela] using hua)).bind fun s₅ hs₅ => ?_
  subst hs₅
  refine (pathDelete_inUse (by simpa [Path.held, hselb] using hother tb hne hub)).bind
    fun s₆ hs₆ => ?_
  subst hs₆
  exact ⟨rfl, h₄⟩

theorem tagUnlink (hw : s₀.WellFormed) (hc : IsName c) (hR : R f c) :
    Sat E (Fuse.tagUnlink env s (dirPath [c] ++ slash :: f)) fun r =>
      r.1 = 0 ∧ Extends s₀ (fun n k => R n k ∧ ¬(n = f ∧ k = c)) [] r.2 := by
  have hds : ∀ d ∈ [c], IsName d := by simpa using hc
  have hcount : getCharacterCount (dirPath [c] ++ slash :: f) slash = 2 := by
    have h2 : getCharacterCount (dirPath [c, f]) slash = 2 :=
      getCharacterCount_dirPath (by simpa using ⟨hc, hf⟩)
    simpa [dirPath] using h2
  unfold Fuse.tagUnlink
  rw [hcount, if_neg (by omega)]
  apply (sat_pathCreate_child h.wellFormed.tidy.toTyped hds hf).bind
  rintro ⟨p, s₁⟩ ⟨hp, hm⟩
  dsimp only at hp hm ⊢
  obtain ⟨t, hsel⟩ := held_of_keys hm.keys
  have hname : p.filename = f := hp.filename
  have h₁ : Extends s₀ R [] s₁ := h.made hm (by simpa using h.free hR) (by simp)
    (by simpa using ⟨f, hR⟩)
  obtain ⟨hk, hfirm⟩ := h.firm hR hm hsel
  apply (h₁.pathUnlink hw (hname.symm ▸ hR) (hm.kept hk) hsel hfirm).bind
  rintro ⟨res, s₂⟩ ⟨h0, h₂, hu, -⟩
  dsimp only at h0 h₂ hu ⊢
  rw [hname] at h₂
  refine (pathDelete_inUse (by simpa [Path.held, hsel] using hu)).bind fun s₃ hs₃ => ?_
  subst hs₃
  exact ⟨h0, h₂⟩

end

end Extends

/-- A callback for each file in turn, with what the system answers during it: the results and the
store after the last. -/
def forFiles (call : Env → Store → CStr → Except Fault (ℤ × Store)) (fs : List (Env × CStr))
    (s : Store) : Except Fault (List ℤ × Store) :=
  forEach fs (fun (r : List ℤ × Store) c => do
    let (res, s) ← call c.1 r.2 c.2
    .ok (r.1 ++ [res], s)) ([], s)

theorem sat_forFiles {call : Env → Store → CStr → Except Fault (ℤ × Store)} {fs : List (Env × CStr)}
    (I : List (Env × CStr) → Store → Prop)
    (hstep : ∀ l₀ c l₁ s, l₀ ++ c :: l₁ = fs → I l₀ s →
      Sat E (call c.1 s c.2) fun r => r.1 = 0 ∧ I (l₀ ++ [c]) r.2)
    (h : I [] s) : Sat E (forFiles call fs s) fun r => r.1 = List.replicate fs.length 0 ∧ I fs r.2 := by
  refine sat_forEach_visited
    (fun l₀ (r : List ℤ × Store) => r.1 = List.replicate l₀.length 0 ∧ I l₀ r.2) ?_ ⟨rfl, h⟩
  rintro l₀ c l₁ ⟨rs, s⟩ hsplit ⟨hrs, hI⟩
  refine (hstep l₀ c l₁ s hsplit hI).bind fun r hr => ⟨?_, hr.2⟩
  dsimp only at hrs ⊢
  rw [hrs, hr.1, List.length_append, List.length_singleton, List.replicate_succ']

/-- The name of an existing regular file. -/
def RegularFile (c : Env × CStr) : Prop :=
  IsName c.2 ∧ c.1.regular (appendDir c.1.realdirpath c.2) = true

instance (c : Env × CStr) : Decidable (RegularFile c) := inferInstanceAs (Decidable (_ ∧ _))

theorem notMem_of_split {fs l₀ l₁ : List (Env × CStr)} {c : Env × CStr} (hsplit : l₀ ++ c :: l₁ = fs)
    (hnd : (fs.map Prod.snd).Nodup) : c.2 ∉ l₀.map Prod.snd := by
  rw [← hsplit, List.map_append, List.map_cons] at hnd
  intro hmem
  exact (List.disjoint_of_nodup_append hnd) hmem List.mem_cons_self

section

variable {fs : List (Env × CStr)} {L : List CStr} (hfiles : ∀ c ∈ fs, RegularFile c)
include hfiles

theorem sat_linkFiles (hw : s.WellFormed) (ha : IsName a) (hfree : s.tags.get? a = none) :
    Sat E (forFiles (fun env s f =>
      tagLink env s (dirPath [] ++ slash :: f) (dirPath [a] ++ slash :: f)) fs s) fun r =>
        r.1 = List.replicate fs.length 0 ∧
          Extends s (fun n k => n ∈ fs.map Prod.snd ∧ k = a) [] r.2 := by
  refine sat_forFiles (fun l₀ s' => Extends s (fun n k => n ∈ l₀.map Prod.snd ∧ k = a) [] s') ?_
    ((Extends.refl hw).congr (by simp))
  intro l₀ c l₁ s' hsplit h
  obtain ⟨hf, hreg⟩ := hfiles c (by simp [← hsplit])
  refine (h.tagLink hf ha hfree hreg).mono fun r hr => ⟨hr.1, hr.2.congr fun n k => ?_⟩
  simp only [List.map_append, List.mem_append, List.map_cons, List.map_nil, List.mem_singleton]
  tauto

variable (hperm : (fs.map Prod.snd).Perm L) (hnd : L.Nodup) (hw : s₀.WellFormed)
include hperm hnd hw

theorem sat_renameFiles (ha : IsName a) (hb : IsName b) (hab : a ≠ b)
    (hfree : s₀.tags.get? b = none) (h : Extends s₀ (fun n k => n ∈ L ∧ k = a) [] s) :
    Sat E (forFiles (fun env s f =>
      tagRename env s (dirPath [a] ++ slash :: f) (dirPath [b] ++ slash :: f)) fs s) fun r =>
        r.1 = List.replicate fs.length 0 ∧ Extends s₀ (fun n k => n ∈ L ∧ k = b) [] r.2 := by
  refine (sat_forFiles (fun l₀ s' => Extends s₀ (fun n k =>
    n ∈ L ∧ n ∉ l₀.map Prod.snd ∧ k = a ∨ n ∈ l₀.map Prod.snd ∧ k = b) [] s') ?_
    (h.congr (by simp))).mono ?_
  · intro l₀ c l₁ s' hsplit h
    obtain ⟨hf, hreg⟩ := hfiles c (by simp [← hsplit])
    have hmem : c.2 ∈ L := hperm.mem_iff.mp (by simp [← hsplit])
    have hnot := notMem_of_split hsplit (hperm.nodup_iff.mpr hnd)
    refine (h.tagRename hf hw ha hb hab hfree hreg (.inl ⟨hmem, hnot, rfl⟩)).mono
      fun r hr => ⟨hr.1, hr.2.congr fun n k => ?_⟩
    simp only [List.map_append, List.mem_append, List.map_cons, List.map_nil, List.mem_singleton]
    by_cases hn : n = c.2
    · subst hn
      by_cases hk : k = a
      · subst hk
        simp [hab]
      · simp [hk, hnot]
    · simp [hn]
  · rintro r ⟨hres, h⟩
    refine ⟨hres, h.congr fun n k => ?_⟩
    have hmem := hperm.mem_iff (a := n)
    constructor
    · rintro (⟨hn, hno, -⟩ | ⟨hn, rfl⟩)
      · exact absurd (hmem.mpr hn) hno
      · exact ⟨hmem.mp hn, rfl⟩
    · rintro ⟨hn, rfl⟩
      exact .inr ⟨hmem.mpr hn, rfl⟩

theorem sat_unlinkFiles (hb : IsName b) (h : Extends s₀ (fun n k => n ∈ L ∧ k = b) [] s) :
    Sat E (forFiles (fun env s f => tagUnlink env s (dirPath [b] ++ slash :: f)) fs s) fun r =>
      r.1 = List.replicate fs.length 0 ∧ Extends s₀ (fun _ _ => False) [] r.2 := by
  refine (sat_forFiles (fun l₀ s' => Extends s₀ (fun n k =>
    n ∈ L ∧ n ∉ l₀.map Prod.snd ∧ k = b) [] s') ?_ (h.congr (by simp))).mono ?_
  · intro l₀ c l₁ s' hsplit h
    obtain ⟨hf, -⟩ := hfiles c (by simp [← hsplit])
    have hmem : c.2 ∈ L := hperm.mem_iff.mp (by simp [← hsplit])
    have hnot := notMem_of_split hsplit (hperm.nodup_iff.mpr hnd)
    refine (h.tagUnlink hf hw hb ⟨hmem, hnot, rfl⟩).mono
      fun r hr => ⟨hr.1, hr.2.congr fun n k => ?_⟩
    simp only [List.map_append, List.mem_append, List.map_cons, List.map_nil, List.mem_singleton]
    tauto
  · rintro r ⟨hres, h⟩
    refine ⟨hres, h.congr fun n k => iff_of_false ?_ id⟩
    rintro ⟨hn, hno, -⟩
    exact hno (hperm.mem_iff.mpr hn)

end

theorem Extends.used_iff (h : Extends s₀ (fun _ _ => False) [] s) :
    s.tags.get? k = some t ∧ s.InUse t ↔ s₀.tags.get? k = some t ∧ s₀.InUse t := by
  constructor
  · rintro ⟨hk, hu⟩
    cases hk₀ : s₀.tags.get? k with
    | none =>
      obtain ⟨-, n, hR⟩ := (h.fresh hk₀ hk).resolve_left (by simp)
      exact hR.elim
    | some t₀ =>
      obtain ⟨hk', hheap⟩ := h.kept hk₀
      obtain rfl : t₀ = t := Option.some.inj (hk'.symm.trans hk)
      exact ⟨rfl, by rwa [Store.InUse, ← hheap]⟩
  · rintro ⟨hk, hu⟩
    obtain ⟨hk', hheap⟩ := h.kept hk
    exact ⟨hk', by rwa [Store.InUse, hheap]⟩

/-- In a well-formed store, linking distinct regular files `f` to `/a/f`, renaming `/a/f` to `/b/f`
in any order and unlinking `/b/f` in any order, where the names `a` and `b` are free, returns 0 at
every call and restores the relation between files and tags and the registered tags in use. -/
theorem bulk_restores {linked renamed unlinked : List (Env × CStr)} (hw : s.WellFormed)
    (ha : IsName a) (hb : IsName b) (hab : a ≠ b) (hfa : s.tags.get? a = none)
    (hfb : s.tags.get? b = none) (hfiles : ∀ c ∈ linked ++ renamed ++ unlinked, RegularFile c)
    (hdistinct : (linked.map Prod.snd).Nodup)
    (hrenamed : (renamed.map Prod.snd).Perm (linked.map Prod.snd))
    (hunlinked : (unlinked.map Prod.snd).Perm (linked.map Prod.snd)) :
    ∃ s₁ s₂ s₃,
      forFiles (fun env s f => tagLink env s (dirPath [] ++ slash :: f) (dirPath [a] ++ slash :: f))
        linked s = .ok (List.replicate linked.length 0, s₁) ∧
      forFiles (fun env s f =>
          tagRename env s (dirPath [a] ++ slash :: f) (dirPath [b] ++ slash :: f))
        renamed s₁ = .ok (List.replicate linked.length 0, s₂) ∧
      forFiles (fun env s f => tagUnlink env s (dirPath [b] ++ slash :: f)) unlinked s₂ =
        .ok (List.replicate linked.length 0, s₃) ∧
      (∀ n k, s₃.Carries n k ↔ s.Carries n k) ∧
      ∀ k t, s₃.tags.get? k = some t ∧ s₃.InUse t ↔ s.tags.get? k = some t ∧ s.InUse t := by
  have hlen₂ : renamed.length = linked.length := by simpa using hrenamed.length_eq
  have hlen₃ : unlinked.length = linked.length := by simpa using hunlinked.length_eq
  have hfiles₁ : ∀ c ∈ linked, RegularFile c := fun c hc => hfiles c (by simp [hc])
  obtain ⟨⟨r₁, s₁⟩, h₁, rfl, hx₁⟩ := (sat_linkFiles hfiles₁ hw ha hfa).exists_ok
  obtain ⟨⟨r₂, s₂⟩, h₂, rfl, hx₂⟩ := (sat_renameFiles (fun c hc => hfiles c (by simp [hc]))
    hrenamed hdistinct hw ha hb hab hfb hx₁).exists_ok
  obtain ⟨⟨r₃, s₃⟩, h₃, rfl, hx₃⟩ := (sat_unlinkFiles (fun c hc => hfiles c (by simp [hc]))
    hunlinked hdistinct hw hb hx₂).exists_ok
  refine ⟨s₁, s₂, s₃, h₁, hlen₂ ▸ h₂, hlen₃ ▸ h₃, fun n k => ?_, fun k t => hx₃.used_iff⟩
  rw [hx₃.carries]
  exact or_iff_left id

/-- The files `f` and `g`, renamed in the other order. -/
theorem bulk_restores_sample : ∃ s₁ s₂ s₃,
    forFiles (fun env s f =>
        tagLink env s (dirPath [] ++ slash :: f) (dirPath [nameX] ++ slash :: f))
      [(sampleEnv, nameF), (sampleEnv, nameG)] .init = .ok ([0, 0], s₁) ∧
    forFiles (fun env s f =>
        tagRename env s (dirPath [nameX] ++ slash :: f) (dirPath [nameY] ++ slash :: f))
      [(sampleEnv, nameG), (sampleEnv, nameF)] s₁ = .ok ([0, 0], s₂) ∧
    forFiles (fun env s f => tagUnlink env s (dirPath [nameY] ++ slash :: f))
      [(sampleEnv, nameG), (sampleEnv, nameF)] s₂ = .ok ([0, 0], s₃) ∧
    (∀ n k, s₃.Carries n k ↔ Store.init.Carries n k) ∧
    ∀ k t, s₃.tags.get? k = some t ∧ s₃.InUse t ↔
      Store.init.tags.get? k = some t ∧ Store.init.InUse t :=
  bulk_restores wellFormed_init (by decide) (by decide) (by decide) rfl rfl (by decide) (by decide)
    (List.Perm.swap _ _ []) (List.Perm.swap _ _ [])

end TagFilesystem.Fuse
