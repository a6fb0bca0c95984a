import TagFilesystem.Fuse.LinkSpec

namespace TagFilesystem.Fuse

variable {env : Env} {s s' : Store} {t : TagId} {T : Tag} {f : FileId} {F : File}
  {k n : CStr} {E : Fault → Prop} {sel : HashTable TagId}

/-- All entries of the table are registered tags. -/
def Store.Registered (s : Store) (sel : HashTable TagId) : Prop :=
  ∀ e ∈ sel.entries, s.tags.get? e.1 = some e.2

/-- The tags of the table are live, under their names; they need not be registered any more. -/
def Store.AllLive (s : Store) (sel : HashTable TagId) : Prop :=
  ∀ e ∈ sel.entries, ∃ T, s.tagHeap.get? e.2 = some T ∧ T.value = e.1

theorem Store.Registered.allLive (h : s.Registered sel) (hs : s.Typed) : s.AllLive sel :=
  fun e he => hs.tagEntry (h e he)

theorem Store.Registered.current (h : s.Registered sel) (hs : s.Typed) :
    ∀ e ∈ sel.entries, s.Current e.2 := fun e he => current_of_registered hs (h e he)

/-- The record `f`, named `n`, has all tags of the table. -/
def Store.Selected (s : Store) (sel : HashTable TagId) (n : CStr) (f : FileId) : Prop :=
  s.files.get? n = some f ∧ ∀ e ∈ sel.entries, ∃ t, s.Tagged f e.1 t

theorem sat_addRecords {m : List (CStr × FileId)} {R : HashTable FileId} (h : s.Typed)
    (hm : ∀ e ∈ m, s.files.get? e.1 = some e.2) (hu : R.Unique)
    (hR : ∀ {n f}, R.get? n = some f → s.files.get? n = some f) :
    Sat E (forEach m (fun (R : HashTable FileId) e => do
      let F ← s.readFile e.2
      .ok (R.addNew F.name e.2)) R) fun R' => R'.Unique ∧
        ∀ n f, R'.get? n = some f ↔ R.get? n = some f ∨ (n, f) ∈ m := by
  refine sat_forEach_visited (fun m₀ (R' : HashTable FileId) => R'.Unique ∧
    ∀ n f, R'.get? n = some f ↔ R.get? n = some f ∨ (n, f) ∈ m₀) ?_ ⟨hu, by simp⟩
  rintro m₀ ⟨n, f⟩ m₁ R' hsplit ⟨hu', hR'⟩
  have hn := hm (n, f) (by rw [← hsplit]; simp)
  obtain ⟨F, hF, hname⟩ := h.fileEntry hn
  have hsame {f' : FileId} (hf' : R'.get? n = some f') : f' = f := by
    rcases (hR' n f').mp hf' with hold | hnew
    · exact Option.some.inj ((hR hold).symm.trans hn)
    · have hn' := hm (n, f') (by rw [← hsplit]; simp [hnew])
      exact Option.some.inj (hn'.symm.trans hn)
  simp only [Store.readFile_eq hF, hname, bind, Except.bind, sat_ok]
  refine ⟨hu'.addNew, fun n' f' => ?_⟩
  rw [Table.get?_addNew]
  by_cases hnn : n = n'
  · subst hnn
    have hval : (R'.get? n).getD f = f := by
      cases hg : R'.get? n with
      | none => rfl
      | some f₁ => exact hsame hg
    rw [if_pos rfl, hval, List.mem_append, ← or_assoc, ← hR' n f']
    constructor
    · intro hf
      exact .inr (by simp [Option.some.inj hf])
    · rintro (hold | hnew)
      · rw [hsame hold]
      · simpa [eq_comm] using hnew
  · rw [if_neg hnn, hR' n' f']
    simp [Ne.symm hnn]

theorem sat_addMissing {M : HashTable FileId} (hsel : s.AllLive sel)
    (hF : s.fileHeap.get? f = some F) :
    Sat E (forEach sel.entries (fun (M : HashTable FileId) e => do
      let F ← s.readFile f
      let T ← s.readTag e.2
      .ok (if F.tags.contains T.value = true then M else M.add F.name f)) M) fun M' =>
        ∀ n, n ∈ M'.keys ↔ n ∈ M.keys ∨ n = F.name ∧ ∃ e ∈ sel.entries, ¬ ∃ t, s.Tagged f e.1 t := by
  refine sat_forEach_visited (fun (l₀ : Held) (M' : HashTable FileId) => ∀ n, n ∈ M'.keys ↔
    n ∈ M.keys ∨ n = F.name ∧ ∃ e ∈ l₀, ¬ ∃ t, s.Tagged f e.1 t) ?_ (by simp)
  rintro l₀ e l₁ M' hsplit hM
  obtain ⟨T, hT, hv⟩ := hsel e (by rw [← hsplit]; simp)
  have htag : (∃ t, s.Tagged f e.1 t) ↔ F.tags.contains e.1 = true := by
    simp [Store.Tagged, hF, Table.contains_iff_get?]
  simp only [Store.readFile_eq hF, Store.readTag_eq hT, hv, bind, Except.bind, sat_ok]
  intro n
  simp only [List.mem_append, List.mem_singleton, or_and_right, exists_or, exists_eq_left, htag]
  split_ifs with hc
  · simp [hM, hc]
  · have hkeys : n ∈ (M'.add F.name f).keys ↔ n ∈ M'.keys ∨ n = F.name := by simp [Table.keys]
    rw [hkeys, hM]
    simp only [hc]
    tauto

/-- The record `f` is among the files of one of the tags and has all of them. -/
def Store.Chosen (s : Store) (sel : HashTable TagId) (n : CStr) (f : FileId) : Prop :=
  (∃ e ∈ sel.entries, s.Linked e.1 e.2 n f) ∧ ∀ e ∈ sel.entries, ∃ t, s.Tagged f e.1 t

theorem linked_record (h : s.Typed) {e : CStr × TagId} {n : CStr} {f : FileId}
    (hl : s.Linked e.1 e.2 n f) : s.files.get? n = some f := by
  obtain ⟨T, hT, -, hf⟩ := hl
  exact h.tagFilesEntry hT hf

theorem sat_collectFiles (h : s.Typed) (hsel : s.AllLive sel) :
    Sat E (forEach sel.entries (fun selectedFiles e => do
        let T ← s.readTag e.2
        forEach T.files.entries (fun selectedFiles e => do
          let F ← s.readFile e.2
          .ok (selectedFiles.addNew F.name e.2)) selectedFiles) Table.empty)
      fun R : HashTable FileId => R.Unique ∧
        ∀ n f, R.get? n = some f ↔ ∃ e ∈ sel.entries, s.Linked e.1 e.2 n f := by
  refine sat_forEach_visited (fun (l₀ : List (CStr × TagId)) (R : HashTable FileId) => R.Unique ∧
    ∀ n f, R.get? n = some f ↔ ∃ e ∈ l₀, s.Linked e.1 e.2 n f) ?_ ⟨Table.unique_empty, by simp⟩
  rintro l₀ e l₁ R hsplit ⟨hu, hR⟩
  obtain ⟨T, hT, hv⟩ := hsel e (by rw [← hsplit]; simp)
  have hmem (n : CStr) (f : FileId) : (n, f) ∈ T.files.entries ↔ s.Linked e.1 e.2 n f := by
    rw [← (h.tagFilesUnique hT).get?_eq_some]
    constructor
    · exact fun hf => ⟨T, hT, hv, hf⟩
    · rintro ⟨T', hT', -, hf⟩
      cases hT.symm.trans hT'
      exact hf
  simp only [Store.readTag_eq hT, bind, Except.bind]
  refine (sat_addRecords h (fun e' he' => linked_record h ((hmem e'.1 e'.2).mp he')) hu
    fun hf => ?_).mono fun R' hR' => ⟨hR'.1, fun n f => ?_⟩
  · obtain ⟨e', -, hl⟩ := (hR _ _).mp hf
    exact linked_record h hl
  · rw [hR'.2, hR, hmem]
    simp only [List.mem_append, List.mem_singleton, or_and_right, exists_or, exists_eq_left]

theorem sat_notMatching {R : HashTable FileId} (h : s.Typed) (hsel : s.AllLive sel)
    (hrecord : ∀ e ∈ R.entries, s.files.get? e.1 = some e.2) :
    Sat E (forEach R.entries (fun notMatching e => do
        forEach sel.entries (fun notMatching e' => do
          let F ← s.readFile e.2
          let T ← s.readTag e'.2
          .ok (if F.tags.contains T.value = true then notMatching else notMatching.add F.name e.2))
          notMatching) (Table.empty : HashTable FileId))
      fun M => ∀ n, n ∈ M.keys ↔
        ∃ f, (n, f) ∈ R.entries ∧ ∃ e ∈ sel.entries, ¬ ∃ t, s.Tagged f e.1 t := by
  refine sat_forEach_visited (fun (l₀ : List (CStr × FileId)) (M : HashTable FileId) =>
    ∀ n, n ∈ M.keys ↔ ∃ f, (n, f) ∈ l₀ ∧ ∃ e ∈ sel.entries, ¬ ∃ t, s.Tagged f e.1 t) ?_ (by simp)
  rintro l₀ ⟨n, f⟩ l₁ M hsplit hM
  obtain ⟨F, hF, hname⟩ := h.fileEntry (hrecord (n, f) (by rw [← hsplit]; simp))
  refine (sat_addMissing hsel hF).mono fun M' hM' n' => ?_
  rw [hM', hM, hname]
  simp only [List.mem_append, List.mem_singleton, Prod.mk.injEq, or_and_right, exists_or]
  refine or_congr_right ⟨?_, ?_⟩
  · rintro ⟨rfl, hlack⟩
    exact ⟨f, ⟨rfl, rfl⟩, hlack⟩
  · rintro ⟨f', ⟨rfl, rfl⟩, hlack⟩
    exact ⟨rfl, hlack⟩

theorem sat_chosen (h : s.Typed) (hsel : s.AllLive sel) :
    Sat E (readdirGetSelectedFiles s sel) fun R => R.Unique ∧
      ∀ n f, R.get? n = some f ↔ s.Chosen sel n f := by
  apply (sat_collectFiles h hsel).bind
  rintro R ⟨hu, hR⟩
  have hentry (n : CStr) (f : FileId) : (n, f) ∈ R.entries ↔ R.get? n = some f :=
    hu.get?_eq_some.symm
  have hrecord : ∀ e ∈ R.entries, s.files.get? e.1 = some e.2 := by
    rintro ⟨n, f⟩ he
    obtain ⟨e', -, hl⟩ := (hR n f).mp ((hentry n f).mp he)
    exact linked_record h hl
  refine (sat_notMatching h hsel hrecord).bind fun M hM => ?_
  obtain ⟨hu', hget⟩ := hu.get?_foldl_erase M.entries
  refine ⟨hu', fun n f => ?_⟩
  rw [hget, show n ∈ M.entries.map Prod.fst ↔ n ∈ M.keys from Iff.rfl, hM]
  simp only [hentry]
  constructor
  · rintro ⟨hlack, hn⟩
    refine ⟨(hR n f).mp hn, fun e he => ?_⟩
    by_contra hno
    exact hlack ⟨f, hn, e, he, hno⟩
  · rintro ⟨hl, hall⟩
    have hn := (hR n f).mpr hl
    refine ⟨?_, hn⟩
    rintro ⟨f', hf', e', he', hno⟩
    cases hn.symm.trans hf'
    exact hno (hall e' he')

/-- `readdir_get_selected_files`: the records that have all tags of the path. -/
theorem sat_readdirGetSelectedFiles (h : s.Typed) (hc : s.Coherent) (hsel : s.AllLive sel)
    (hcur : ∀ e ∈ sel.entries, s.Current e.2) :
    Sat E (readdirGetSelectedFiles s sel) fun R => R.Unique ∧
      ∀ n f, R.get? n = some f ↔ sel.entries ≠ [] ∧ s.Selected sel n f := by
  refine (sat_chosen h hsel).mono fun R hR => ⟨hR.1, fun n f => ?_⟩
  rw [hR.2]
  constructor
  · rintro ⟨⟨e, he, T, hT, -, hf⟩, hall⟩
    exact ⟨List.ne_nil_of_mem he, h.tagFilesEntry hT hf, hall⟩
  · rintro ⟨hne, hn, hall⟩
    obtain ⟨e, he⟩ := List.exists_mem_of_ne_nil _ hne
    obtain ⟨t, htag⟩ := hall e he
    obtain ⟨hk, hl⟩ := (hc hn e.1 t).mp htag
    -- the tag is registered, so that it is the one of the path
    obtain ⟨T, hT, hv⟩ := hsel e he
    obtain rfl : t = e.2 := hcur e he T t hT (hv ▸ hk)
    exact ⟨⟨e, he, hl⟩, hall⟩

/-- The tag object is live and has the value `u`. -/
def Store.Valued (s : Store) (t : TagId) (u : CStr) : Prop :=
  ∃ T, s.tagHeap.get? t = some T ∧ T.value = u

/-- A record of the table has a tag that has been freed. -/
def Store.Stale (s : Store) (R : HashTable FileId) : Prop :=
  ∃ e ∈ R.entries, ∃ k t, s.Tagged e.2 k t ∧ ¬ ∃ u, s.Valued t u

/-- The names given to `filler` and the table of what has been given: each name outside the path
that satisfies `P`, once. -/
structure Filled (sel : HashTable TagId) (r : List CStr × HashTable TagId) (P : CStr → Prop) :
    Prop where
  nodup : r.1.Nodup
  keys : ∀ u, u ∈ r.1 ↔ u ∈ r.2.keys
  mem : ∀ u, u ∈ r.1 ↔ u ∉ sel.keys ∧ P u

theorem Filled.congr {r : List CStr × HashTable TagId} {P Q : CStr → Prop} (h : Filled sel r P)
    (hpq : ∀ u, P u ↔ Q u) : Filled sel r Q :=
  ⟨h.nodup, h.keys, fun u => (h.mem u).trans (and_congr_right fun _ => hpq u)⟩

theorem Filled.give {r : List CStr × HashTable TagId} {P : CStr → Prop} (h : Filled sel r P)
    (v : CStr) (t : TagId) : Filled sel (if sel.contains v = false ∧ r.2.contains v = false then
      (r.1 ++ [v], r.2.addNew v t) else r) fun u => P u ∨ u = v := by
  simp only [Table.contains_eq_false, Table.get?_eq_none, ← h.keys v]
  split_ifs with hnew
  · refine ⟨List.Nodup.append h.nodup (List.nodup_singleton _) (by simpa using hnew.2),
      fun u => ?_, fun u => ?_⟩
    · rw [Table.mem_keys_addNew, ← h.keys u]
      simp [or_comm]
    · rw [List.mem_append, List.mem_singleton, h.mem, and_or_left]
      refine or_congr_right ⟨?_, And.right⟩
      rintro rfl
      exact ⟨hnew.1, rfl⟩
  · refine ⟨h.nodup, h.keys, fun u => ?_⟩
    rw [and_or_left, ← h.mem]
    constructor
    · exact .inl
    · rintro (hu | ⟨hother, rfl⟩)
      · exact hu
      · by_contra hno
        exact hnew ⟨hother, hno⟩

theorem sat_fillTags {l : Held} {r : List CStr × HashTable TagId} {P : CStr → Prop}
    (hr : Filled sel r P) :
    Sat (fun x => x = .freedTag ∧ ∃ e ∈ l, ¬ ∃ u, s.Valued e.2 u)
      (forEach l (fun (r : List CStr × HashTable TagId) e => do
        let T ← s.readTag e.2
        .ok (if sel.contains T.value = false ∧ r.2.contains T.value = false then
          (r.1 ++ [T.value], r.2.addNew T.value e.2) else r)) r) fun r' =>
      (∀ e ∈ l, ∃ u, s.Valued e.2 u) ∧ Filled sel r' fun u => P u ∨ ∃ e ∈ l, s.Valued e.2 u := by
  refine sat_forEach_visited (fun (l₀ : Held) r' => (∀ e ∈ l₀, ∃ u, s.Valued e.2 u) ∧
    Filled sel r' fun u => P u ∨ ∃ e ∈ l₀, s.Valued e.2 u) ?_ ⟨by simp, by simpa using hr⟩
  rintro l₀ ⟨k, t⟩ l₁ r' hsplit ⟨hlive, hr'⟩
  cases hT : s.tagHeap.get? t with
  | none =>
    have hfreed : ¬ ∃ u, s.Valued t u := by
      rintro ⟨u, T, hT', -⟩
      rw [hT] at hT'
      cases hT'
    simp only [Store.readTag, hT]
    exact ⟨rfl, (k, t), by rw [← hsplit]; simp, hfreed⟩
  | some T =>
    have hval (u : CStr) : s.Valued t u ↔ u = T.value := by
      simp [Store.Valued, hT, eq_comm]
    simp only [Store.readTag_eq hT]
    refine ⟨?_, (hr'.give T.value t).congr fun u => ?_⟩
    · rw [List.forall_mem_append, List.forall_mem_singleton]
      exact ⟨hlive, T.value, T, hT, rfl⟩
    · simp only [List.mem_append, List.mem_singleton, or_and_right, exists_or, exists_eq_left, hval,
        or_assoc]

/-- `readdir_fill_remaining_tags` in any store. It faults exactly at a freed tag. -/
theorem sat_remaining {R : HashTable FileId} (h : s.Typed)
    (hR : ∀ e ∈ R.entries, s.files.get? e.1 = some e.2) :
    Sat (fun x => x = .freedTag ∧ s.Stale R) (readdirFillRemainingTags s sel R) fun out =>
      ¬ s.Stale R ∧ out.Nodup ∧
        ∀ u, u ∈ out ↔ u ∉ sel.keys ∧ ∃ e ∈ R.entries, ∃ k t, s.Tagged e.2 k t ∧ s.Valued t u := by
  unfold readdirFillRemainingTags
  -- the tags of the records in `l₀` are live
  refine Sat.bind (P := fun r => (∀ e ∈ R.entries, ∀ k t, s.Tagged e.2 k t → ∃ u, s.Valued t u) ∧
    Filled sel r fun u => ∃ e ∈ R.entries, ∃ k t, s.Tagged e.2 k t ∧ s.Valued t u) ?_ ?_
  · refine sat_forEach_visited (fun (l₀ : List (CStr × FileId)) r =>
      (∀ e ∈ l₀, ∀ k t, s.Tagged e.2 k t → ∃ u, s.Valued t u) ∧
      Filled sel r fun u => ∃ e ∈ l₀, ∃ k t, s.Tagged e.2 k t ∧ s.Valued t u) ?_
      ⟨by simp, by simp, by simp, by simp⟩
    rintro l₀ ⟨n, f⟩ l₁ r hsplit ⟨hlive, hr⟩
    have he : (n, f) ∈ R.entries := by
      rw [← hsplit]
      simp
    obtain ⟨F, hF, -⟩ := h.fileEntry (hR (n, f) he)
    have htag (k : CStr) (t : TagId) : s.Tagged f k t ↔ (k, t) ∈ F.tags.entries := by
      rw [← (h.fileTagsUnique hF).get?_eq_some]
      simp [Store.Tagged, hF]
    simp only [Store.readFile_eq hF, bind, Except.bind]
    refine ((sat_fillTags hr).weaken ?_).mono ?_
    · rintro x ⟨rfl, ⟨k, t⟩, hk, hno⟩
      exact ⟨rfl, (n, f), he, k, t, (htag k t).mpr hk, hno⟩
    · rintro r' ⟨hlive', hr'⟩
      refine ⟨?_, hr'.congr fun u => ?_⟩
      · rw [List.forall_mem_append, List.forall_mem_singleton]
        exact ⟨hlive, fun k t hk => hlive' (k, t) ((htag k t).mp hk)⟩
      · simp only [List.mem_append, List.mem_singleton, or_and_right, exists_or, exists_eq_left,
          htag, Prod.exists]
  · rintro r ⟨hlive, hr⟩
    refine ⟨?_, hr.nodup, hr.mem⟩
    rintro ⟨e, he, k, t, hk, hno⟩
    exact hno (hlive e he k t hk)

/-- `readdir_fill_remaining_tags`: each other tag of a selected file, once. -/
theorem sat_readdirFillRemainingTags {R : HashTable FileId} (h : s.Typed) (hc : s.Coherent)
    (hR : ∀ e ∈ R.entries, s.files.get? e.1 = some e.2) :
    Sat E (readdirFillRemainingTags s sel R) fun out => out.Nodup ∧
      ∀ u, u ∈ out ↔ u ∉ sel.keys ∧ ∃ e ∈ R.entries, ∃ t, s.Tagged e.2 u t := by
  have hlive {e : CStr × FileId} (he : e ∈ R.entries) {k : CStr} {t : TagId}
      (hk : s.Tagged e.2 k t) : s.Valued t k := by
    obtain ⟨-, T, hT, hv, -⟩ := (hc (hR e he) k t).mp hk
    exact ⟨T, hT, hv⟩
  have hfresh : ¬ s.Stale R := by
    rintro ⟨e, he, k, t, hk, hno⟩
    exact hno ⟨k, hlive he hk⟩
  refine ((sat_remaining h hR).weaken fun x hx => absurd hx.2 hfresh).mono
    fun out hout => ⟨hout.2.1, fun u => ?_⟩
  rw [hout.2.2]
  refine and_congr_right fun _ => exists_congr fun e => and_congr_right fun he => ⟨?_, ?_⟩
  · rintro ⟨k, t, hk, T, hT, rfl⟩
    obtain ⟨T', hT', rfl⟩ := hlive he hk
    cases hT.symm.trans hT'
    exact ⟨t, hk⟩
  · rintro ⟨t, hk⟩
    exact ⟨u, t, hk, hlive he hk⟩

theorem sat_readdirListTagsMode2 (h : s.Typed) (hc : s.Coherent) (hsel : s.AllLive sel)
    (hcur : ∀ e ∈ sel.entries, s.Current e.2) (hne : sel.entries ≠ []) : Sat E (readdirListTagsMode2 s sel) fun out => out.Nodup ∧
      ∀ u, u ∈ out ↔ u ∉ sel.keys ∧ ∃ n, (∀ k ∈ sel.keys, s.Carries n k) ∧ s.Carries n u := by
  refine (sat_readdirGetSelectedFiles h hc hsel hcur).bind fun R hR => ?_
  obtain ⟨hu, hR⟩ := hR
  have hentry (n : CStr) (f : FileId) : (n, f) ∈ R.entries ↔ s.Selected sel n f := by
    rw [← hu.get?_eq_some, hR]
    simp [hne]
  refine (sat_readdirFillRemainingTags h hc fun e he => ((hentry e.1 e.2).mp he).1).mono
    fun out hout => ⟨hout.1, fun u => ?_⟩
  rw [hout.2]
  refine and_congr_right fun _ => ?_
  constructor
  · rintro ⟨⟨n, f⟩, he, htag⟩
    obtain ⟨hn, hall⟩ := (hentry n f).mp he
    refine ⟨n, fun k hk => ?_, f, hn, htag⟩
    obtain ⟨e, he', rfl⟩ := List.mem_map.mp hk
    exact ⟨f, hn, hall e he'⟩
  · rintro ⟨n, hall, f, hn, htag⟩
    refine ⟨(n, f), (hentry n f).mpr ⟨hn, fun e he => ?_⟩, htag⟩
    obtain ⟨f', hn', htag'⟩ := hall e.1 (List.mem_map_of_mem he)
    cases hn.symm.trans hn'
    exact htag'

/-- `readdir_list_tags_mode1` without selected tags: the tags in use. -/
theorem sat_readdirListTagsMode1 (h : s.Typed) (hnil : sel.entries = []) :
    Sat E (readdirListTagsMode1 s sel) fun out => out.Nodup ∧ ∀ u, u ∈ out ↔ s.UsedName u := by
  unfold readdirListTagsMode1 tagList
  rw [← List.map_reverse, forEach_map]
  have hmem (e) (he : e ∈ s.tags.entries.reverse) : s.tags.get? e.1 = some e.2 :=
    h.tagsUnique.get?_eq_some.mpr (List.mem_reverse.mp he)
  refine (sat_forEach_visited (fun (l₀ : Held) out =>
    out = (l₀.filter fun e => s.UsedName e.1).map Prod.fst) ?_ rfl).mono ?_
  · rintro l₀ e l₁ out hsplit rfl
    have hk := hmem e (by rw [← hsplit]; simp)
    obtain ⟨T, hT, hv⟩ := h.tagEntry hk
    have hused : s.UsedName e.1 ↔ T.inUse = true := by
      simp [Store.UsedName, Store.InUse, hk, hT]
    simp only [Store.readTag_eq hT, hv, bind, Except.bind, sat_ok, List.filter_append,
      List.filter_cons, List.filter_nil, hused, Table.contains_eq_false,
      Table.get?_of_entries_nil hnil, true_and]
    cases hu : T.inUse <;> simp
  · rintro out rfl
    refine ⟨?_, fun u => ?_⟩
    · have hnd : (s.tags.entries.reverse.map Prod.fst).Nodup := by
        rw [List.map_reverse]
        exact List.nodup_reverse.mpr h.tagsUnique
      exact hnd.sublist (List.filter_sublist.map Prod.fst)
    · simp only [List.mem_map, List.mem_filter, decide_eq_true_eq]
      constructor
      · rintro ⟨e, ⟨-, hu⟩, rfl⟩
        exact hu
      · rintro ⟨t, hk, hu⟩
        exact ⟨(u, t), ⟨List.mem_reverse.mpr (Table.mem_of_get? hk), t, hk, hu⟩, rfl⟩

/-- The names that `readdir_list_files` shows. -/
def shownFiles (env : Env) (s : Store) (ks : List CStr) : List CStr :=
  (env.dirents.filter fun d => d.isDir = false ∧ ∀ k ∈ ks, s.Carries d.name k).map Dirent.name

theorem mem_shownFiles {ks : List CStr} {d : Dirent} (hd : d ∈ env.dirents) (hdir : d.isDir = false) :
    d.name ∈ shownFiles env s ks ↔ ∀ k ∈ ks, s.Carries d.name k := by
  simp only [shownFiles, List.mem_map, List.mem_filter, decide_eq_true_eq]
  constructor
  · rintro ⟨d', ⟨-, -, hall⟩, hname⟩
    exact hname ▸ hall
  · intro hall
    exact ⟨d, ⟨hd, hdir, hall⟩, rfl⟩

/-- `getattr_intra` accepts the entry in a directory with these components. -/
def ShowsEntry (env : Env) (s : Store) (ks : List CStr) (d : Dirent) : Prop :=
  d.isDir = false ∧ if env.regular (appendDir env.realdirpath d.name) = true
    then ∀ k ∈ ks, s.Carries d.name k else (env.stat env.realdirpath).isSome = true

instance (env : Env) (s : Store) (ks : List CStr) (d : Dirent) : Decidable (ShowsEntry env s ks d) :=
  inferInstanceAs (Decidable (_ ∧ ite _ _ _))

def shownEntries (env : Env) (s : Store) (ks : List CStr) : List CStr :=
  (env.dirents.filter fun d => ShowsEntry env s ks d).map Dirent.name

theorem shownEntries_congr {ks ks' : List CStr}
    (h : ∀ d, ShowsEntry env s ks d ↔ ShowsEntry env s' ks' d) :
    shownEntries env s ks = shownEntries env s' ks' := by
  unfold shownEntries
  exact congrArg _ (List.filter_congr fun d _ => decide_eq_decide.mpr (h d))

theorem sat_showsEntry {dirpath : Path} (h : s.Typed) (hsel : s.AllLive dirpath.selectedTags) :
    Sat E (readdirListFiles env s dirpath) fun r =>
      r.1 = shownEntries env s dirpath.selectedTags.keys ∧ ∀ n k, r.2.Carries n k ↔ s.Carries n k := by
  refine (sat_forEach_visited (fun (l₀ : List Dirent) (r : List CStr × Store) =>
    r.1 = (l₀.filter fun d => ShowsEntry env s dirpath.selectedTags.keys d).map Dirent.name ∧
    r.2.Typed ∧ r.2.tagHeap = s.tagHeap ∧ ∀ n k, r.2.Carries n k ↔ s.Carries n k)
    ?_ ⟨rfl, h, rfl, fun _ _ => Iff.rfl⟩).mono fun r hr => ⟨hr.1, hr.2.2.2⟩
  rintro l₀ d l₁ ⟨out, s₁⟩ - ⟨rfl, ht₁, hheap, hcar⟩
  dsimp only at ht₁ hheap hcar ⊢
  split_ifs with hdir
  · exact ⟨by simp [List.filter_append, ShowsEntry, hdir], ht₁, hheap, hcar⟩
  set p := pathSet env dirpath.virtpath d.name dirpath.selectedTags
  have hacc : Accepts env s₁ p ↔ ShowsEntry env s dirpath.selectedTags.keys d := by
    have hdir' : d.isDir = false := by simpa using hdir
    simp only [Accepts, ShowsEntry, p, pathSet, hcar, Path.held, Table.keys, List.forall_mem_map, hdir',
      true_and]
  apply (sat_getattrIntra (p := p) ht₁ fun e he => hheap ▸ hsel e he).bind
  rintro ⟨res, st, s₂⟩ ⟨rfl, hres⟩
  dsimp only at hres ⊢
  rw [hacc] at hres
  refine ⟨?_, typed_getattrStore ht₁, by simpa using hheap,
    fun n k => carries_getattrStore.trans (hcar n k)⟩
  rw [List.filter_append, List.map_append]
  rcases hres with ⟨h0, hshown⟩ | ⟨hneg, hno⟩
  · rw [if_neg (by omega), List.filter_cons_of_pos (by simpa using hshown)]
    rfl
  · rw [if_pos hneg, List.filter_cons_of_neg (by simpa using hno)]
    simp

theorem sat_readdirListFiles {dirpath : Path} (h : s.Tidy) (hc : s.Coherent)
    (hsel : s.AllLive dirpath.selectedTags) (hstat : ∀ d ∈ env.dirents, d.isDir = false →
      env.regular (appendDir env.realdirpath d.name) = true) :
    Sat E (readdirListFiles env s dirpath) fun r =>
      r.1 = shownFiles env s dirpath.selectedTags.keys ∧ r.2.Tidy ∧ r.2.Coherent ∧
        ∀ n k, r.2.Carries n k ↔ s.Carries n k := by
  have hstore : Returns (readdirListFiles env s dirpath) fun r => r.2.Tidy ∧ r.2.Coherent := by
    refine (sat_forEach_mem (I := fun r : List CStr × Store =>
      r.2.Tidy ∧ r.2.Coherent ∧ r.2.tagHeap = s.tagHeap) (fun d _ r hr => ?_) ⟨h, hc, rfl⟩).mono
        fun r hr => ⟨hr.1, hr.2.1⟩
    split_ifs
    · exact hr
    · have hlook : Returns (getattrIntra env r.2
          (pathSet env dirpath.virtpath d.name dirpath.selectedTags)) _ :=
        sat_getattrIntra hr.1.toTyped fun e he => hr.2.2 ▸ hsel e he
      apply hlook.bind
      rintro ⟨res, st, s₂⟩ ⟨rfl, -⟩
      exact ⟨tidy_getattrStore hr.1, coherent_getattrStore hr.1.toTyped hr.2.1, by simpa using hr.2.2⟩
  refine ((sat_showsEntry h.toTyped hsel).and hstore).mono fun r hr => ⟨?_, hr.2.1, hr.2.2, hr.1.2⟩
  rw [hr.1.1, shownEntries, shownFiles]
  congr 1
  refine List.filter_congr fun d hd => decide_eq_decide.mpr (and_congr_right fun hdir => ?_)
  rw [if_pos (hstat d hd hdir)]

theorem sat_fdOpen_dir {path : Path} {m : Malloc} {flags : ℤ} :
    Returns (fdOpen env s path m flags true) fun r => (∃ e, r.1 = .error e ∧ e ≠ 0) ∨
      ∃ a fd, m.fd = some a ∧ r.1 = .ok a ∧ fd.path = path ∧
        r.2 = { s with fds := s.fds.add a fd } := by
  have htag : Returns (fdOpenTag s path true) fun r => ∀ e, r = .error e → e ≠ 0 := by
    unfold fdOpenTag
    split_ifs
    · cases tagGet s path.filename with
      | none => simp [ENOENT]
      | some t =>
        refine sat_bind.mpr (sat_readTag (fun _ => trivial) fun T _ => ?_)
        split_ifs <;> simp [ENOENT]
    · simp
  simp only [fdOpen, if_true]
  refine htag.bind fun r hr => ?_
  cases r with
  | error e => exact .inl ⟨e, rfl, hr e rfl⟩
  | ok tag =>
    cases hm : m.fd with
    | none => exact .inl ⟨_, rfl, by simp [ENOMEM]⟩
    | some a => exact .inr ⟨a, _, rfl, rfl, rfl, rfl⟩

/-- `opendir` that succeeds leaves a descriptor that holds the tags of the path. -/
theorem sat_opendir {D : CStr} {m : Malloc} {flags : ℤ} (h : s.Typed) :
    Returns (tagOpen env s D m flags true) fun r => r.1 = 0 → ∃ a fd s₀, m.fd = some a ∧
      Made s (components D) fd.path.selectedTags s₀ ∧ r.2 = { s₀ with fds := s₀.fds.add a fd } := by
  apply (sat_pathCreate h D true).bind
  rintro ⟨path, s₀⟩ ⟨-, hm⟩
  simp only [if_true] at hm ⊢
  apply sat_fdOpen_dir.bind
  rintro ⟨fd, s₁⟩ (⟨e, rfl, he⟩ | ⟨a, fd', hma, rfl, rfl, rfl⟩)
  · exact fun h0 => absurd h0 he
  · exact fun _ => ⟨a, fd', s₀, hma, hm, rfl⟩

theorem pathDelete_inUse {path : Path} (hu : ∀ e ∈ path.held, s.InUse e.2) :
    Sat E (pathDelete env s path) (· = s) := by
  refine sat_forEach_mem (I := (· = s)) ?_ rfl
  rintro e he s' rfl
  obtain ⟨T, hT, hT'⟩ := hu e he
  simp [Store.readTag_eq hT, hT', bind, Except.bind]

theorem inUse_of_carries (h : s.Tidy) (hc : s.Coherent) (hk : s.tags.get? k = some t)
    (hcar : s.Carries n k) : s.InUse t := by
  obtain ⟨f, hn, t', htag⟩ := hcar
  obtain ⟨hk', T, hT, -, hf⟩ := (hc hn k t').mp htag
  cases hk.symm.trans hk'
  refine ⟨T, hT, ?_⟩
  cases hu : T.inUse with
  | true => rfl
  | false =>
    rw [Table.get?_of_entries_nil (h.idle hT hu)] at hf
    cases hf

/-- `getattr` of `D/n` succeeds exactly if the record `n` has all tags of `D`. -/
theorem getattr_iff {D : CStr} (h : s.Tidy) (hc : s.Coherent) (hD : D.head? = some slash)
    (hn : IsName n) (hreg : env.regular (appendDir env.realdirpath n) = true) :
    (∃ ret st s', tagGetattr env s (appendDir D n) = .ok (ret, st, s') ∧ 0 ≤ ret) ↔
      ∀ k ∈ components D, s.Carries n k := by
  have hdot : D ≠ dot := by
    rintro rfl
    cases hD
  have hcomp : components (dirname (appendDir D n)) = components D := by
    rw [appendDir, components_dirname_child hn (by simp [hD]), components_ne_dot hdot]
  have hmake : ∃ r, pathCreate env s (appendDir D n) false = .ok r ∧ _ :=
    (sat_pathCreate h.toTyped (appendDir D n) false).exists_ok
  obtain ⟨⟨path, s₁⟩, hpath, hp, hm⟩ := hmake
  simp only [Bool.false_eq_true, if_false, hcomp] at hp hm
  have hname : path.filename = n := by
    rw [hp]
    exact basename_child hn D
  have hreal : path.realpath = appendDir env.realdirpath n := by
    rw [hp]
    exact congrArg (appendDir env.realdirpath) (basename_child hn D)
  have hacc : Accepts env s₁ path ↔ ∀ k ∈ components D, s.Carries n k := by
    simp only [Accepts, hreal, hreg, if_true, hname, hm.carries, ← hm.keys, Table.keys,
      List.forall_mem_map, Path.held]
  have hlook : ∃ r, getattrIntra env s₁ path = .ok r ∧ _ :=
    (sat_getattrIntra hm.typed fun e he => hm.typed.tagEntry (hm.entry he)).exists_ok
  obtain ⟨⟨res, st, s₂⟩, hget, hs₂, hres⟩ := hlook
  dsimp only at hs₂ hres
  rw [hacc] at hres
  have hrun : tagGetattr env s (appendDir D n) =
      pathDelete env s₂ path >>= fun s' => .ok (res, st, s') := by
    simp [tagGetattr, hpath, hget, bind, Except.bind]
  constructor
  · rintro ⟨ret, st', s', hr, h0⟩
    rw [hrun] at hr
    have hret : ret = res := by
      have hspec : Returns (pathDelete env s₂ path >>= fun s' => .ok (res, st, s')) (·.1 = res) :=
        (returns_true _).bind fun _ _ => rfl
      exact hspec.of_ok hr
    exact (hres.resolve_right (by omega)).2
  · intro hall
    have h0 := (hres.resolve_right fun hno => hno.2 hall).1
    have hused : ∀ e ∈ path.held, s₂.InUse e.2 := by
      intro e he
      have hk : e.1 ∈ components D := hm.mem_iff.mp ⟨e.2, he⟩
      have hu := inUse_of_carries (hm.tidy h) (hm.coherent hc) (hm.entry he)
        (hm.carries.mpr (hall e.1 hk))
      simpa [hs₂, Store.InUse] using hu
    have hrest : ∃ s', pathDelete env s₂ path = .ok s' ∧ _ := (pathDelete_inUse hused).exists_ok
    obtain ⟨s', hdel, -⟩ := hrest
    exact ⟨res, st, s', by rw [hrun, hdel]; rfl, by omega⟩

theorem sat_readdirTags {ks : List CStr} (h : s.Typed) (hc : s.Coherent) (hsel : s.AllLive sel)
    (hcur : ∀ e ∈ sel.entries, s.Current e.2) (hkeys : sel.keys = ks) :
    Sat E (if sel.size > 0 then readdirListTagsMode2 s sel else readdirListTagsMode1 s sel)
      fun out => out.Nodup ∧ ∀ u, u ∈ out ↔ if ks = [] then s.UsedName u
        else u ∉ ks ∧ ∃ n, (∀ k ∈ ks, s.Carries n k) ∧ s.Carries n u := by
  subst hkeys
  by_cases hnil : sel.entries = []
  · have hkeys : sel.keys = [] := by simp [Table.keys, hnil]
    rw [if_neg (by simp [Table.size, hnil])]
    simpa only [hkeys, if_true] using sat_readdirListTagsMode1 h hnil
  · have hkeys : sel.keys ≠ [] := by simpa [Table.keys] using hnil
    have hsize : sel.size > 0 := List.length_pos_iff.mpr hnil
    rw [if_pos hsize]
    simpa only [hkeys, if_false] using sat_readdirListTagsMode2 h hc hsel hcur hnil

/-- A directory whose `opendir` has succeeded is read right away: `readdir` shows `.` and `..`, the
tags that the query of its components stands for, each once, and the entries of the target
directory whose records have all components as tags; these are the names for which `getattr`
succeeds in this directory. -/
theorem readdir_lists_query {env₀ : Env} {D : CStr} {m : Malloc} {a : Addr} {flags : ℤ} {s₁ : Store}
    (h : s.Tidy) (hc : s.Coherent) (hD : D.head? = some slash)
    (hopen : tagOpen env₀ s D m flags true = .ok (0, s₁)) (ha : m.fd = some a)
    (hstat : ∀ d ∈ env.dirents, d.isDir = false →
      env.regular (appendDir env.realdirpath d.name) = true) :
    ∃ tags s₂, tagReaddir env s₁ a =
        .ok ([dot, dotdot] ++ tags ++ shownFiles env s (components D), s₂) ∧
      tags.Nodup ∧
      (∀ u, u ∈ tags ↔ if components D = [] then s.UsedName u
        else u ∉ components D ∧ ∃ n, (∀ k ∈ components D, s.Carries n k) ∧ s.Carries n u) ∧
      ∀ d ∈ env.dirents, d.isDir = false → IsName d.name →
        ((∃ ret st s₃, tagGetattr env s₂ (appendDir D d.name) = .ok (ret, st, s₃) ∧ 0 ≤ ret) ↔
          d.name ∈ shownFiles env s (components D)) := by
  obtain ⟨a', fd, s₀, ha', hm, rfl⟩ := (sat_opendir h.toTyped).of_ok hopen rfl
  cases ha.symm.trans ha'
  have ht₁ : Store.Tidy { s₀ with fds := s₀.fds.add a fd } := (hm.tidy h).setDescriptors _
  have hc₁ : Store.Coherent { s₀ with fds := s₀.fds.add a fd } := hm.coherent hc
  have hsel : Store.Registered { s₀ with fds := s₀.fds.add a fd } fd.path.selectedTags :=
    fun e he => hm.entry he
  have hcar (n k : CStr) : Store.Carries { s₀ with fds := s₀.fds.add a fd } n k ↔ s.Carries n k :=
    hm.carries
  have hused (u : CStr) : Store.UsedName { s₀ with fds := s₀.fds.add a fd } u ↔ s.UsedName u :=
    hm.usedName_iff
  have hfd : Store.readFd { s₀ with fds := s₀.fds.add a fd } a = .ok fd := by simp [Store.readFd]
  obtain ⟨tags, htags, hnd, hmem⟩ := (sat_readdirTags (E := fun _ => False) ht₁.toTyped hc₁
    (hsel.allLive ht₁.toTyped) (hsel.current ht₁.toTyped) hm.keys).exists_ok
  obtain ⟨⟨names, s₂⟩, hfiles, hnames, ht₂, hc₂, hcar₂⟩ :=
    (sat_readdirListFiles (E := fun _ => False) ht₁ hc₁ (hsel.allLive ht₁.toTyped) hstat).exists_ok
  simp only [hm.keys, shownFiles, hcar, hused] at hnames hmem
  refine ⟨tags, s₂, ?_, hnd, hmem, fun d hd hdir hn => ?_⟩
  · subst hnames
    simp only [tagReaddir, hfd, bind, Except.bind]
    split_ifs at htags ⊢
    all_goals
      simp only [htags, hfiles]
      rfl
  · rw [getattr_iff ht₂ hc₂ hD hn (hstat d hd hdir), mem_shownFiles hd hdir]
    simp only [hcar₂, hcar]

/-- The directory `x` is opened and read: `f` has the tags `x` and `y`, `g` only `y`. -/
theorem readdir_lists_query_sample : ∃ s₀ s₁ s₂ tags,
    tagOpen sampleEnv s₀ (dirPath [nameX]) ⟨1, some 2⟩ 0 true = .ok (0, s₁) ∧
    tagReaddir sampleEnv s₁ 2 =
      .ok ([dot, dotdot] ++ tags ++ shownFiles sampleEnv s₀ (components (dirPath [nameX])), s₂) ∧
    ∀ u, u ∈ tags ↔ u ∉ [nameX] ∧
      ∃ n, (∀ k ∈ [nameX], s₀.Carries n k) ∧ s₀.Carries n u := by
  have hrun : (execute step ReleaseHarmless
      [⟨sampleEnv, .link (samplePath [] nameF) (samplePath [nameX, nameY] nameF)⟩,
        ⟨sampleEnv, .link (samplePath [] nameG) (samplePath [nameY] nameG)⟩] .init).any (fun s =>
          returnsWith (tagOpen sampleEnv s (dirPath [nameX]) ⟨1, some 2⟩ 0 true)
            (fun r => r.1 = 0)) = true := by
    decide +kernel
  obtain ⟨s₀, hs, hp⟩ := (Option.any_eq_true _ _).mp hrun
  obtain ⟨⟨ret, s₁⟩, hopen, h0⟩ := returnsWith_iff.mp hp
  obtain rfl : ret = 0 := of_decide_eq_true h0
  have h₀ : setRootDirectory sampleEnv none = .ok .init := rfl
  have hst := coherence_sound.reaches h₀ ((reaches_of_execute hs).weaken fun _ _ => coherence_permits)
  have hcomp : components (dirPath [nameX]) = [nameX] := by decide
  have hstat : ∀ d ∈ sampleEnv.dirents, d.isDir = false →
      sampleEnv.regular (appendDir sampleEnv.realdirpath d.name) = true := by decide
  obtain ⟨tags, s₂, hread, -, htags, -⟩ :=
    readdir_lists_query hst.1 hst.2.1 (by decide) hopen rfl hstat
  simp only [hcomp] at htags
  exact ⟨s₀, s₁, s₂, tags, hopen, hread, by simpa using htags⟩

end TagFilesystem.Fuse
