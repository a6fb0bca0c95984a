import TagFilesystem.Fuse.Descriptors

namespace TagFilesystem.Fuse

variable {env : Env} {s s' s₁ s₂ s₃ : Store} {f : FileId} {F : File} {t : TagId} {a d : Addr}

/-- The kinds of changes of the tags of a file. -/
inductive Change
  | added
  | removed
  deriving DecidableEq

/-- The event that pollers are told. -/
def Change.event : Change → UInt32
  | .added => POLLIN
  | .removed => POLLOUT

/-- `*reventsp` has the event of the change. -/
def reports (revents : UInt32) (k : Change) : Prop := revents &&& k.event ≠ 0

/-- What happens to the file `f`: a call of `tag_poll`, `file_add_tag` or `file_remove_tag`. -/
inductive PollEvent
  | poll (a : Addr) (ph : Option PollHandle)
  | addTag (env : Env) (t : TagId)
  | removeTag (env : Env) (t : TagId)

def PollEvent.change : PollEvent → Option Change
  | .poll .. => none
  | .addTag .. => some .added
  | .removeTag .. => some .removed

def pollStep (f : FileId) (s : Store) : PollEvent → Except Fault Store
  | .poll a ph => Prod.snd <$> tagPoll s a ph
  | .addTag env t => fileAddTag env s f t
  | .removeTag env t => fileRemoveTag env s f t

theorem not_reports_zero (k : Change) : ¬ reports 0 k := by
  unfold reports
  cases k <;> decide

theorem event_and_event {c k : Change} : c.event &&& k.event ≠ 0 ↔ c = k := by
  cases c <;> cases k <;> decide

theorem reports_or {r : UInt32} {c k : Change} :
    reports (r ||| c.event) k ↔ reports r k ∨ c = k := by
  have hdistrib : (r ||| c.event) &&& k.event = (r &&& k.event) ||| (c.event &&& k.event) := by
    apply UInt32.toBitVec_inj.mp
    exact BitVec.and_or_distrib_right
  rw [reports, reports, hdistrib, Ne, UInt32.or_eq_zero_iff, not_and_or, ← Ne, ← Ne,
    event_and_event]

theorem reports_notified {c k : Change} {e : Addr × Addr} (he : e ∈ F.descriptors.entries)
    (hph : (s.pollHandle env e.2).isSome = true) :
    reports (s.notified env F c.event) k ↔ reports F.revents k ∨ c = k := by
  -- the bit is set by any of the descriptors left in the list
  have hfold : ∀ (l : List (Addr × Addr)) (r : UInt32),
      reports (l.foldl (fun r e => if (s.pollHandle env e.2).isSome then r ||| c.event else r) r) k ↔
        reports r k ∨ (∃ e ∈ l, (s.pollHandle env e.2).isSome = true) ∧ c = k := by
    intro l
    induction l with
    | nil => simp
    | cons e l ih =>
      intro r
      rw [List.foldl_cons, ih]
      split_ifs with hp
      · rw [reports_or]
        simp [hp]
        tauto
      · simp [hp]
  unfold Store.notified
  rw [hfold]
  exact or_congr_right ⟨And.right, fun h => ⟨⟨e, he, hph⟩, h⟩⟩

/-- The descriptor is open on the file. -/
def OpenOn (s : Store) (f : FileId) (a : Addr) : Prop :=
  ∃ fd, s.fds.get? a = some fd ∧ fd.file = some f

/-- The table of the file has an entry for the descriptor. -/
def Listed (s : Store) (f : FileId) (a : Addr) : Prop :=
  ∃ F, s.fileHeap.get? f = some F ∧ ∃ e ∈ F.descriptors.entries, e.2 = a

/-- The descriptor is listed and has a poll handle. -/
def Waits (s : Store) (f : FileId) (d : Addr) : Prop :=
  Listed s f d ∧ ∃ fd, s.fds.get? d = some fd ∧ fd.ph.isSome = true

/-- The word of events of the file has the event. -/
def Pending (s : Store) (f : FileId) (k : Change) : Prop :=
  ∃ F, s.fileHeap.get? f = some F ∧ reports F.revents k

theorem returns_tagPoll {ph : Option PollHandle} (ha : OpenOn s f a) :
    Returns (tagPoll s a ph) fun r => ∃ F, s.fileHeap.get? f = some F ∧ r.1 = F.revents ∧
      r.2 = { s with fds := s.fds.modify a fun fd => { fd with ph := ph } }.writeFile f
        { F with revents := 0 } := by
  obtain ⟨fd, hfd, hfile⟩ := ha
  refine sat_bind.mpr (sat_readFd trivial fun fd' hfd' => ?_)
  rw [hfd] at hfd'
  cases hfd'
  rw [hfile]
  refine sat_bind.mpr (sat_readFile (fun _ => trivial) fun F hF => ?_)
  exact ⟨F, hF, rfl, rfl⟩

theorem openOn_polled {ph : Option PollHandle} (hb : OpenOn s f d) :
    OpenOn ({ s with fds := s.fds.modify a fun fd => { fd with ph := ph } }.writeFile f F) f d := by
  obtain ⟨fd, hfd, hfile⟩ := hb
  simp only [OpenOn, Store.writeFile_fds, Table.get?_modify]
  split_ifs
  · exact ⟨{ fd with ph := ph }, by rw [hfd]; rfl, hfile⟩
  · exact ⟨fd, hfd, hfile⟩

theorem returns_pollStep_change {e : PollEvent} {c : Change} (he : e.change = some c) :
    Returns (pollStep f s e) fun s' => ∃ env F tags, s.fileHeap.get? f = some F ∧
      s' = s.writeFile f { F with tags := tags, revents := s.notified env F c.event } := by
  cases e with
  | poll a ph => cases he
  | addTag env t =>
    cases he
    show Returns (fileAddTag env s f t) _
    cases hT : s.tagHeap.get? t with
    | none => simp [fileAddTag, Store.readTag, hT, bind, Except.bind]
    | some T =>
      cases hF : s.fileHeap.get? f with
      | none => simp [fileAddTag, Store.readTag, Store.readFile, hT, hF, bind, Except.bind]
      | some F =>
        rw [fileAddTag_eq hT hF]
        exact ⟨env, F, _, rfl, rfl⟩
  | removeTag env t =>
    cases he
    show Returns (fileRemoveTag env s f t) _
    cases hT : s.tagHeap.get? t with
    | none => simp [fileRemoveTag, Store.readTag, hT, bind, Except.bind]
    | some T =>
      cases hF : s.fileHeap.get? f with
      | none => simp [fileRemoveTag, Store.readTag, Store.readFile, hT, hF, bind, Except.bind]
      | some F =>
        rw [fileRemoveTag_eq hT hF]
        exact ⟨env, F, _, rfl, rfl⟩

/-- `s'` has the descriptors of `s`, and `d` still waits if it did. -/
structure Keeps (s s' : Store) (f : FileId) (d : Addr) : Prop where
  openOn : ∀ a, OpenOn s f a → OpenOn s' f a
  waits : Waits s f d → Waits s' f d

theorem Keeps.refl : Keeps s s f d := ⟨fun _ => id, id⟩

theorem Keeps.trans (h : Keeps s s₁ f d) (h' : Keeps s₁ s₂ f d) : Keeps s s₂ f d :=
  ⟨fun a ha => h'.openOn a (h.openOn a ha), fun hw => h'.waits (h.waits hw)⟩

theorem returns_change {e : PollEvent} {c : Change} (k : Change) (he : e.change = some c)
    (hd : Waits s f d) : Returns (pollStep f s e) fun s' => Keeps s s' f d ∧
      (Pending s' f k ↔ Pending s f k ∨ c = k) := by
  apply (returns_pollStep_change he).mono
  rintro s' ⟨env, F, tags, hF, rfl⟩
  have hF' : (s.fileHeap.write f { F with
      tags := tags, revents := s.notified env F c.event }).get? f = some _ :=
    Heap.get?_write_self hF
  refine ⟨⟨fun a ha => ha, fun hw => ?_⟩, ?_⟩
  · obtain ⟨⟨F', hF₁, hl⟩, hph⟩ := hw
    rw [hF] at hF₁
    cases hF₁
    exact ⟨⟨_, hF', hl⟩, hph⟩
  · obtain ⟨⟨F', hF₁, e', he', rfl⟩, fd, hfd, hph⟩ := hd
    rw [hF] at hF₁
    cases hF₁
    -- `d` is one of the descriptors that are notified
    have hwait : (s.pollHandle env e'.2).isSome = true := by
      rw [Store.pollHandle, hfd]
      exact hph
    simp only [Pending, Store.writeFile_fileHeap, hF', hF, Option.some.injEq, exists_eq_left']
    exact reports_notified he' hwait

theorem returns_otherPoll {ph : Option PollHandle} (k : Change) (ha : OpenOn s f a)
    (hne : a ≠ d) : Returns (pollStep f s (.poll a ph)) fun s' => Keeps s s' f d ∧
      ¬ Pending s' f k := by
  refine sat_map.mpr ((returns_tagPoll ha).mono ?_)
  rintro ⟨r, s'⟩ ⟨F, hF, -, rfl⟩
  have hF' : (s.fileHeap.write f { F with revents := 0 }).get? f = some _ :=
    Heap.get?_write_self hF
  refine ⟨⟨fun b hb => openOn_polled hb, fun hw => ?_⟩, ?_⟩
  · obtain ⟨⟨F', hF₁, hl⟩, fd, hfd, hph⟩ := hw
    rw [hF] at hF₁
    cases hF₁
    refine ⟨⟨_, hF', hl⟩, fd, ?_, hph⟩
    simp only [Store.writeFile_fds, Table.get?_modify]
    rw [if_neg (Ne.symm hne)]
    exact hfd
  · -- the word of events belongs to the file, and any poll clears it
    rintro ⟨F', hF₁, hr⟩
    rw [Store.writeFile_fileHeap, hF'] at hF₁
    cases hF₁
    exact not_reports_zero k hr

theorem returns_ownPoll {ph : PollHandle} (hopen : OpenOn s f d) (hlisted : Listed s f d) :
    Returns (tagPoll s d (some ph)) fun r => Waits r.2 f d ∧
      ∀ a, OpenOn s f a → OpenOn r.2 f a := by
  apply (returns_tagPoll hopen).mono
  rintro ⟨r, s'⟩ ⟨F, hF, -, rfl⟩
  refine ⟨⟨?_, ?_⟩, fun a ha => openOn_polled ha⟩
  · obtain ⟨F', hF₁, hl⟩ := hlisted
    rw [hF] at hF₁
    cases hF₁
    exact ⟨_, Heap.get?_write_self hF, hl⟩
  · obtain ⟨fd, hfd, -⟩ := hopen
    simp only [Store.writeFile_fds, Table.get?_modify, if_true]
    exact ⟨{ fd with ph := some ph }, by rw [hfd]; rfl, rfl⟩

/-- Every poll in the run is followed by a change of the kind `k`. -/
def Intact (k : Change) (es : List PollEvent) : Prop :=
  ∀ es₁ a ph es₂, es = es₁ ++ .poll a ph :: es₂ → ∃ e ∈ es₂, e.change = some k

theorem intact_nil (k : Change) : Intact k [] := by
  intro es₁ a ph es₂ h
  cases es₁ <;> cases h

theorem not_intact_poll {k : Change} {es : List PollEvent} {ph : Option PollHandle} :
    ¬ Intact k (es ++ [.poll a ph]) := by
  intro h
  obtain ⟨e, he, -⟩ := h es a ph [] rfl
  cases he

theorem intact_change {k c : Change} {es : List PollEvent} {e : PollEvent}
    (he : e.change = some c) : Intact k (es ++ [e]) ↔ Intact k es ∨ c = k := by
  constructor
  · intro h
    by_cases hc : c = k
    · exact .inr hc
    · refine .inl fun es₁ a ph es₂ hes => ?_
      obtain ⟨x, hx, hk⟩ := h es₁ a ph (es₂ ++ [e]) (by simp [hes])
      rcases List.mem_append.mp hx with hx | hx
      · exact ⟨x, hx, hk⟩
      · rw [List.mem_singleton.mp hx, he] at hk
        exact absurd (Option.some.inj hk) hc
  · intro h es₁ a ph es₂ hes
    rcases List.eq_nil_or_concat es₂ with rfl | ⟨l, x, rfl⟩
    · -- the last event is no poll
      have hlast := (List.append_inj' hes rfl).2
      cases hlast
      cases he
    · rw [List.concat_eq_append] at hes ⊢
      rw [← List.cons_append, ← List.append_assoc] at hes
      obtain ⟨hfront, hlast⟩ := List.append_inj' hes rfl
      cases hlast
      rcases h with h | rfl
      · obtain ⟨y, hy, hk⟩ := h es₁ a ph l hfront
        exact ⟨y, List.mem_append_left _ hy, hk⟩
      · exact ⟨e, List.mem_append_right _ (List.mem_singleton_self e), he⟩

/-- The polls of the run are polls of other descriptors of the file. -/
def OtherPolls (s : Store) (f : FileId) (d : Addr) (es : List PollEvent) : Prop :=
  ∀ a ph, .poll a ph ∈ es → a ≠ d ∧ OpenOn s f a

/-- While `d` waits, what is pending at the start of a run is pending at its end exactly if every
poll in between is followed by a change of the kind. -/
theorem returns_pollSteps {es : List PollEvent} (k : Change) (hd : Waits s f d)
    (hes : OtherPolls s f d es) : Returns (forEach es (pollStep f) s) fun s' =>
      Keeps s s' f d ∧ (Pending s f k → (Pending s' f k ↔ Intact k es)) := by
  refine sat_forEach_visited (fun l s' => Keeps s s' f d ∧
    (Pending s f k → (Pending s' f k ↔ Intact k l))) ?_
      ⟨.refl, fun hp => iff_of_true hp (intact_nil k)⟩
  rintro l e l' s₁ hl ⟨hkeep, hpend⟩
  cases he : e.change with
  | some c =>
    apply (returns_change k he (hkeep.waits hd)).mono
    rintro s₂ ⟨hkeep₂, hiff⟩
    refine ⟨hkeep.trans hkeep₂, fun hp => ?_⟩
    rw [hiff, hpend hp, intact_change he]
  | none =>
    cases e with
    | poll a ph =>
      obtain ⟨hne, hopen⟩ := hes a ph (by simp [← hl])
      apply (returns_otherPoll k (hkeep.openOn a hopen) hne).mono
      rintro s₂ ⟨hkeep₂, hnot⟩
      exact ⟨hkeep.trans hkeep₂, fun _ => iff_of_false hnot not_intact_poll⟩
    | addTag env t => cases he
    | removeTag env t => cases he

/-- The descriptor `d` polls with a handle, then the tags of the file change among any polls of
other descriptors and any changes. The next poll of `d` reports the change if and only if every
poll of another descriptor in between is followed by a change of the same kind. -/
theorem poll_reports_iff {k : Change} {e : PollEvent} {es₁ es₂ : List PollEvent} {ph : PollHandle}
    {ph' : Option PollHandle} {r r' : UInt32} (hopen : OpenOn s f d) (hlisted : Listed s f d)
    (hes : OtherPolls s f d (es₁ ++ e :: es₂)) (hpoll : tagPoll s d (some ph) = .ok (r, s₁))
    (hrun : forEach (es₁ ++ e :: es₂) (pollStep f) s₁ = .ok s₂) (hk : e.change = some k)
    (hnext : tagPoll s₂ d ph' = .ok (r', s₃)) : reports r' k ↔ Intact k es₂ := by
  obtain ⟨hwait, hkeep⟩ := (returns_ownPoll hopen hlisted).of_ok hpoll
  have hes' : OtherPolls s₁ f d (es₁ ++ e :: es₂) := fun a ph h =>
    ⟨(hes a ph h).1, hkeep a (hes a ph h).2⟩
  have hret : Returns (forEach (es₁ ++ e :: es₂) (pollStep f) s₁) fun s₂ =>
      OpenOn s₂ f d ∧ (Pending s₂ f k ↔ Intact k es₂) := by
    rw [forEach_append]
    -- before the change nothing is asked of the run but that `d` still waits
    have h₁ : OtherPolls s₁ f d es₁ := fun a ph h => hes' a ph (List.mem_append_left _ h)
    refine (returns_pollSteps k hwait h₁).bind fun sa hsa => ?_
    have hwaita : Waits sa f d := hsa.1.waits hwait
    rw [forEach_cons]
    refine (returns_change k hk hwaita).bind fun sb hsb => ?_
    have hkeepb : Keeps s₁ sb f d := hsa.1.trans hsb.1
    have h₂ : OtherPolls sb f d es₂ := by
      intro a ph h
      obtain ⟨hne, ha⟩ := hes' a ph (List.mem_append_right _ (List.mem_cons_of_mem e h))
      exact ⟨hne, hkeepb.openOn a ha⟩
    refine (returns_pollSteps k (hkeepb.waits hwait) h₂).mono fun s₂ hs₂ => ?_
    exact ⟨(hkeepb.trans hs₂.1).openOn d (hkeep d hopen), hs₂.2 (hsb.2.mpr (.inr rfl))⟩
  obtain ⟨hopen₂, hiff⟩ := hret.of_ok hrun
  obtain ⟨F, hF, hr, -⟩ := (returns_tagPoll hopen₂).of_ok hnext
  rw [← hiff, Pending, hF, show r' = F.revents from hr]
  simp

/-- The file `f` has the tag `x` and is open at the addresses 2 and 4. -/
def twoPollers : Option Store := execute step (fun _ _ => True)
  [⟨sampleEnv, .link (samplePath [] nameF) (samplePath [nameX] nameF)⟩, openOnce, openAgain] .init

/-- What the descriptor at 2 is told, when the events come between two of its polls. -/
def nextPoll (s : Store) (es : List PollEvent) : Except Fault UInt32 := do
  let (_, s) ← tagPoll s 2 (some 1)
  let s ← forEach es (pollStep 0) s
  Prod.fst <$> tagPoll s 2 none

theorem exists_of_nextPoll {es : List PollEvent} {r' : UInt32} (h : nextPoll s es = .ok r') :
    ∃ r s₁ s₂ s₃, tagPoll s 2 (some 1) = .ok (r, s₁) ∧ forEach es (pollStep 0) s₁ = .ok s₂ ∧
      tagPoll s₂ 2 none = .ok (r', s₃) := by
  unfold nextPoll at h
  cases h₁ : tagPoll s 2 (some 1) with
  | error x => simp [h₁, bind, Except.bind] at h
  | ok p =>
    obtain ⟨r, s₁⟩ := p
    cases h₂ : forEach es (pollStep 0) s₁ with
    | error x => simp [h₁, h₂, bind, Except.bind] at h
    | ok s₂ =>
      cases h₃ : tagPoll s₂ 2 none with
      | error x => simp [h₁, h₂, h₃, bind, Except.bind, Functor.map, Except.map] at h
      | ok q =>
        obtain ⟨r₃, s₃⟩ := q
        have hr : r₃ = r' := by
          simpa [h₁, h₂, h₃, bind, Except.bind, Functor.map, Except.map] using h
        exact ⟨r, s₁, s₂, s₃, rfl, h₂, hr ▸ h₃⟩

theorem exists_twoPollers : ∃ s, twoPollers = some s ∧ Listed s 0 2 ∧ OpenOn s 0 2 ∧
    OpenOn s 0 4 ∧ nextPoll s [.poll 4 none, .removeTag sampleEnv 0] = .ok POLLOUT ∧
    nextPoll s [.removeTag sampleEnv 0, .poll 4 none] = .ok 0 := by
  have hrun : twoPollers.any (fun s =>
      (s.fileHeap.get? 0).any (fun F => (2, 2) ∈ F.descriptors.entries) = true ∧
      (s.fds.get? 2).any (fun fd => fd.file = some 0) = true ∧
      (s.fds.get? 4).any (fun fd => fd.file = some 0) = true ∧
      returnsWith (nextPoll s [.poll 4 none, .removeTag sampleEnv 0]) (fun r => r = POLLOUT) =
        true ∧
      returnsWith (nextPoll s [.removeTag sampleEnv 0, .poll 4 none]) (fun r => r = 0) = true) =
      true := by
    decide +kernel
  obtain ⟨s, hs, hp⟩ := (Option.any_eq_true _ _).mp hrun
  obtain ⟨hl, h₂, h₄, hout, hzero⟩ := of_decide_eq_true hp
  obtain ⟨F, hF, hmem⟩ := (Option.any_eq_true _ _).mp hl
  obtain ⟨fd, hfd, hfile⟩ := (Option.any_eq_true _ _).mp h₂
  obtain ⟨fd', hfd', hfile'⟩ := (Option.any_eq_true _ _).mp h₄
  obtain ⟨r, hr, hrv⟩ := returnsWith_iff.mp hout
  obtain ⟨r', hr', hrv'⟩ := returnsWith_iff.mp hzero
  refine ⟨s, hs, ⟨F, hF, (2, 2), of_decide_eq_true hmem, rfl⟩, ⟨fd, hfd, of_decide_eq_true hfile⟩,
    ⟨fd', hfd', of_decide_eq_true hfile'⟩, ?_, ?_⟩
  · rw [hr, of_decide_eq_true hrv]
  · rw [hr', of_decide_eq_true hrv']

/-- The other descriptor polls before the tag is removed. -/
theorem poll_reports_iff_sample : ∃ s, twoPollers = some s ∧
    nextPoll s [.poll 4 none, .removeTag sampleEnv 0] = .ok POLLOUT ∧
      (reports POLLOUT .removed ↔ Intact .removed []) := by
  obtain ⟨s, hs, hl, h₂, h₄, hnext, -⟩ := exists_twoPollers
  refine ⟨s, hs, hnext, ?_⟩
  obtain ⟨r, s₁, s₂, s₃, hpoll, hrun, hr⟩ := exists_of_nextPoll hnext
  have hes : OtherPolls s 0 2 ([.poll 4 none] ++ .removeTag sampleEnv 0 :: []) := by
    intro a ph h
    obtain ⟨rfl, -⟩ : a = 4 ∧ ph = none := by simpa using h
    exact ⟨by decide, h₄⟩
  exact poll_reports_iff h₂ hl hes hpoll hrun rfl hr

/-- The other descriptor polls after the tag has been removed and takes the event. -/
theorem poll_loses_event : ¬ ∀ s f d ph ph' (es₁ : List PollEvent) e es₂ k r s₁ s₂ r' s₃,
    OpenOn s f d → Listed s f d → OtherPolls s f d (es₁ ++ e :: es₂) →
    tagPoll s d (some ph) = .ok (r, s₁) →
    forEach (es₁ ++ e :: es₂) (pollStep f) s₁ = .ok s₂ → e.change = some k →
    tagPoll s₂ d ph' = .ok (r', s₃) → reports r' k := by
  intro h
  obtain ⟨s, -, hl, h₂, h₄, -, hnext⟩ := exists_twoPollers
  obtain ⟨r, s₁, s₂, s₃, hpoll, hrun, hr⟩ := exists_of_nextPoll hnext
  have hes : OtherPolls s 0 2 ([] ++ .removeTag sampleEnv 0 :: [.poll 4 none]) := by
    intro a ph h
    obtain ⟨rfl, -⟩ : a = 4 ∧ ph = none := by simpa using h
    exact ⟨by decide, h₄⟩
  exact not_reports_zero .removed
    (h s 0 2 1 none [] _ [.poll 4 none] .removed r s₁ s₂ 0 s₃ h₂ hl hes hpoll hrun rfl hr)

end TagFilesystem.Fuse
