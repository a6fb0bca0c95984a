import TagFilesystem.Library.Interleaving
import TagFilesystem.Fuse.Tag

namespace TagFilesystem.Fuse

/-- The hash tables `tags` and `files`. -/
inductive Registry
  | tags
  | files
  deriving DecidableEq

variable {s s' s₀ : Store} {r r' : Registry} {n name : CStr} {a b t : ℕ} {found : List (CStr × ℕ)}

def Store.registry (s : Store) : Registry → HashTable ℕ
  | .tags => s.tags
  | .files => s.files

/-- `tag_new` and `file_new`. -/
def newObject (s : Store) (r : Registry) (name : CStr) (inUse : Bool) : ℕ × Store :=
  match r with
  | .tags => (s.tagHeap.next, { s with tagHeap := s.tagHeap.alloc (tagNew name inUse) })
  | .files => (s.fileHeap.next, { s with fileHeap := s.fileHeap.alloc (fileNew name) })

/-- `ht_add_entry`. -/
def addEntry (s : Store) (r : Registry) (name : CStr) (a : ℕ) : Store :=
  match r with
  | .tags => { s with tags := s.tags.add name a }
  | .files => { s with files := s.files.add name a }

inductive Call
  | tagGetOrCreate (value : CStr)
  | fileGetOrCreate (value : CStr)
  | computeSelectedTags (dirpath : CStr)
  deriving DecidableEq

namespace Call

def registry : Call → Registry
  | tagGetOrCreate _ => .tags
  | fileGetOrCreate _ => .files
  | computeSelectedTags _ => .tags

/-- The names that are asked for, in order. -/
def names : Call → List CStr
  | tagGetOrCreate value => [value]
  | fileGetOrCreate value => [value]
  | computeSelectedTags dirpath => if dirpath = dot then [] else stringSplit dirpath [slash]

/-- The argument `in_use` of `tag_get_or_create__`. -/
def inUse : Call → Bool
  | tagGetOrCreate _ => true
  | fileGetOrCreate _ => true
  | computeSelectedTags _ => false

end Call

/-- What is to be done next about a name. -/
inductive Pc
  /-- `tag_get`, which `compute_selected_tags` calls first. -/
  | checking
  /-- `ht_get_entry` in `tag_get_or_create__` or `file_get_or_create`. -/
  | looking
  /-- It has found nothing; `tag_new` or `file_new` is next. -/
  | creating
  /-- `ht_add_entry` of the new object. -/
  | adding (a : ℕ)
  /-- `tag_inc_ref`. -/
  | counting (t : ℕ)
  deriving DecidableEq

def Call.entry : Call → Pc
  | tagGetOrCreate _ => .looking
  | fileGetOrCreate _ => .looking
  | computeSelectedTags _ => .checking

/-- A call with the names it has still to ask for, and those it has got objects for. -/
structure Thread where
  call : Call
  names : List CStr
  pc : Pc
  found : List (CStr × ℕ)
  deriving DecidableEq

namespace Thread

def init (c : Call) : Thread := ⟨c, c.names, c.entry, []⟩

/-- The call goes on with the next name. -/
def answer (T : Thread) (name : CStr) (a : ℕ) : Thread :=
  { T with names := T.names.tail, pc := T.call.entry, found := T.found ++ [(name, a)] }

/-- There is an object; the references to tags are counted. -/
def got (T : Thread) (name : CStr) (a : ℕ) : Thread :=
  match T.call.registry with
  | .tags => { T with pc := .counting a }
  | .files => T.answer name a

/-- The name that `tag_get_or_create__` or `file_get_or_create` looks up next. -/
def looksUp (T : Thread) : Option (Registry × CStr) :=
  match T.pc with
  | .looking => T.names.head?.map fun name => (T.call.registry, name)
  | _ => none

/-- The name that has been looked up in vain and that no object has been entered for yet. -/
def missed (T : Thread) : Option (Registry × CStr) :=
  match T.pc with
  | .creating => T.names.head?.map fun name => (T.call.registry, name)
  | .adding _ => T.names.head?.map fun name => (T.call.registry, name)
  | _ => none

end Thread

/-- One step of a thread: every access to a registry holds its lock. -/
def threadStep (s : Store) (T : Thread) : Except Fault (Store × Thread) :=
  match T.names with
  | [] => .ok (s, T)
  | name :: _ =>
    match T.pc with
    | .checking =>
      match (s.registry T.call.registry).get? name with
      | some t => .ok (s, { T with pc := .counting t })
      | none => .ok (s, { T with pc := .looking })
    | .looking =>
      match (s.registry T.call.registry).get? name with
      | some a => .ok (s, T.got name a)
      | none => .ok (s, { T with pc := .creating })
    | .creating =>
      let (a, s) := newObject s T.call.registry name T.call.inUse
      .ok (s, { T with pc := .adding a })
    | .adding a => .ok (addEntry s T.call.registry name a, T.got name a)
    | .counting t => do
      let s ← tagIncRef s t
      .ok (s, T.answer name t)

/-- Calls start at any time, and the threads take steps in any order. -/
abbrev systemStep : Interleaved Store Thread → Turn Call → Except Fault (Interleaved Store Thread) :=
  Interleaved.step Thread.init threadStep

/-- What a call gives when no other one runs. -/
def callAlone (s : Store) : Call → Except Fault (List (CStr × ℕ) × Store)
  | .tagGetOrCreate value => (fun r => ([(value, r.1)], r.2)) <$> tagGetOrCreate s value
  | .fileGetOrCreate value => .ok ([(value, (fileGetOrCreate s value).1)], (fileGetOrCreate s value).2)
  | .computeSelectedTags dirpath => (fun r => (r.1.entries, r.2)) <$> computeSelectedTags s dirpath

theorem runsTo_tagGetOrCreateIn {T : Thread} {names : List CStr} (hT : T.names = name :: names)
    (hr : T.call.registry = .tags) (hpc : T.pc = .looking) :
    RunsTo threadStep s T (tagGetOrCreateIn s name T.call.inUse).2
      { T with pc := .counting (tagGetOrCreateIn s name T.call.inUse).1 } := by
  obtain ⟨c, ns, pc, found⟩ := T
  dsimp only at hT hr hpc ⊢
  subst hT hpc
  unfold tagGetOrCreateIn
  cases hget : s.tags.get? name with
  | some t =>
    refine .head ?_ (.refl _ _)
    simp [threadStep, Thread.got, hr, Store.registry, hget]
  | none =>
    -- the name is missed, an object made, and the object entered
    have hmiss : threadStep s ⟨c, name :: names, .looking, found⟩ =
        .ok (s, ⟨c, name :: names, .creating, found⟩) := by
      simp [threadStep, hr, Store.registry, hget]
    refine .head hmiss (.head rfl (.head rfl ?_))
    simp only [hr, addEntry, Thread.got]
    exact .refl _ _

theorem runsTo_fileGetOrCreate (value : CStr) :
    RunsTo threadStep s (.init (.fileGetOrCreate value)) (fileGetOrCreate s value).2
      ⟨.fileGetOrCreate value, [], .looking, [(value, (fileGetOrCreate s value).1)]⟩ := by
  unfold fileGetOrCreate
  cases hget : s.files.get? value with
  | some f =>
    have hfound : threadStep s (.init (.fileGetOrCreate value)) =
        .ok (s, ⟨.fileGetOrCreate value, [], .looking, [(value, f)]⟩) := by
      simp [threadStep, Thread.init, Call.names, Call.entry, Call.registry, Store.registry, hget,
        Thread.got, Thread.answer]
    exact .head hfound (.refl _ _)
  | none =>
    have hmiss : threadStep s (.init (.fileGetOrCreate value)) =
        .ok (s, ⟨.fileGetOrCreate value, [value], .creating, []⟩) := by
      simp [threadStep, Thread.init, Call.names, Call.entry, Call.registry, Store.registry, hget]
    exact .head hmiss (.head rfl (.head rfl (.refl _ _)))

theorem threadStep_counting {c : Call} {names : List CStr} (h : tagIncRef s t = .ok s') :
    threadStep s ⟨c, name :: names, .counting t, found⟩ =
      .ok (s', ⟨c, names, c.entry, found ++ [(name, t)]⟩) := by
  simp only [threadStep, h, ok_bind]
  rfl

theorem runsTo_selectedTags {d : CStr} {names : List CStr} {r r' : HashTable TagId × Store}
    (h : forEach names (fun (r : HashTable TagId × Store) name => do
      let (t, s) := match tagGet r.2 name with
        | some t => (t, r.2)
        | none => tagGetOrCreateIn r.2 name false
      let s ← tagIncRef s t
      .ok (r.1.add name t, s)) r = .ok r') :
    RunsTo threadStep r.2 ⟨.computeSelectedTags d, names, .checking, r.1.entries⟩ r'.2
      ⟨.computeSelectedTags d, [], .checking, r'.1.entries⟩ := by
  induction names generalizing r with
  | nil =>
    cases h
    exact .refl _ _
  | cons name names ih =>
    obtain ⟨r₁, hbody, hrest⟩ := bind_eq_ok.mp h
    cases hget : tagGet r.2 name with
    | some t =>
      simp only [hget] at hbody
      obtain ⟨s₁, hcount, heq⟩ := bind_eq_ok.mp hbody
      cases heq
      have hcheck : threadStep r.2 ⟨.computeSelectedTags d, name :: names, .checking, r.1.entries⟩ =
          .ok (r.2, ⟨.computeSelectedTags d, name :: names, .counting t, r.1.entries⟩) := by
        unfold tagGet at hget
        simp [threadStep, Call.registry, Store.registry, hget]
      exact .head hcheck (.head (threadStep_counting hcount) (ih hrest))
    | none =>
      simp only [hget] at hbody
      obtain ⟨s₁, hcount, heq⟩ := bind_eq_ok.mp hbody
      cases heq
      have hcheck : threadStep r.2 ⟨.computeSelectedTags d, name :: names, .checking, r.1.entries⟩ =
          .ok (r.2, ⟨.computeSelectedTags d, name :: names, .looking, r.1.entries⟩) := by
        unfold tagGet at hget
        simp [threadStep, Call.registry, Store.registry, hget]
      have hcreate := runsTo_tagGetOrCreateIn (s := r.2)
        (T := ⟨.computeSelectedTags d, name :: names, .looking, r.1.entries⟩) rfl rfl rfl
      exact .head hcheck (hcreate.trans (.head (threadStep_counting hcount) (ih hrest)))

theorem runsTo_callAlone {c : Call} (h : callAlone s c = .ok (found, s')) :
    RunsTo threadStep s (.init c) s' ⟨c, [], c.entry, found⟩ := by
  cases c with
  | tagGetOrCreate value =>
    obtain ⟨⟨t, s₂⟩, hrun, heq⟩ := map_eq_ok.mp h
    cases heq
    obtain ⟨s₁, hcount, heq⟩ := bind_eq_ok.mp hrun
    cases heq
    have hcreate := runsTo_tagGetOrCreateIn (s := s) (T := .init (.tagGetOrCreate value)) rfl rfl rfl
    exact hcreate.trans (.head (threadStep_counting hcount) (.refl _ _))
  | fileGetOrCreate value =>
    cases h
    exact runsTo_fileGetOrCreate value
  | computeSelectedTags dirpath =>
    obtain ⟨⟨sel, s₁⟩, hrun, heq⟩ := map_eq_ok.mp h
    cases heq
    unfold computeSelectedTags at hrun
    simp only [Thread.init, Call.names, Call.entry]
    split_ifs at hrun ⊢
    · cases hrun
      exact .refl _ _
    · exact runsTo_selectedTags hrun

/-- There is at most one entry per name, and calls that ask for the same name get the same object. -/
structure OneObjectPerName (S : Interleaved Store Thread) : Prop where
  tags : S.shared.tags.Unique
  files : S.shared.files.Unique
  same : ∀ T ∈ S.threads, ∀ U ∈ S.threads, T.call.registry = U.call.registry →
    ∀ name a b, (name, a) ∈ T.found → (name, b) ∈ U.found → a = b

/-- A name may be looked up in `tag_get_or_create__` or `file_get_or_create` unless another thread
has missed it there. -/
def NotMissed (T U : Thread) : Prop := T.looksUp = none ∨ U.missed ≠ T.looksUp

instance (T U : Thread) : Decidable (NotMissed T U) := inferInstanceAs (Decidable (_ ∨ _))

/-- Only one of two threads is about to enter an object for a name. -/
def Apart (T U : Thread) : Prop := ∀ x, T.missed = some x → U.missed ≠ some x

theorem Apart.symm {T U : Thread} (h : Apart T U) : Apart U T := fun x hU hT => h x hT hU

/-- What a thread has got is what is registered. -/
def Thread.FoundIn (T : Thread) (s : Store) : Prop :=
  ∀ name a, (name, a) ∈ T.found → (s.registry T.call.registry).get? name = some a

/-- Also a name that the thread has missed is still free. -/
structure Thread.Sound (s : Store) (T : Thread) : Prop where
  found : T.FoundIn s
  counting : ∀ {name t}, T.pc = .counting t → T.names.head? = some name →
    (s.registry T.call.registry).get? name = some t
  missed : ∀ {r name}, T.missed = some (r, name) → (s.registry r).get? name = none

theorem registry_addEntry : (addEntry s r name a).registry r' =
    if r' = r then (s.registry r).add name a else s.registry r' := by
  cases r <;> cases r' <;> rfl

theorem get?_addEntry (hfree : (s.registry r).get? name = none)
    (h : (s.registry r').get? n = some b) :
    ((addEntry s r name a).registry r').get? n = some b := by
  rw [registry_addEntry]
  split_ifs with hr
  · subst hr
    rw [Table.get?_add]
    split_ifs with hn
    · rw [← hn, hfree] at h
      cases h
    · exact h
  · exact h

namespace Thread

variable {T U : Thread} {names : List CStr}

theorem sound_init (s : Store) (c : Call) : (init c).Sound s where
  found n a h := by cases h
  counting h := by cases c <;> cases h
  missed h := by cases c <;> cases h

theorem FoundIn.addEntry (h : T.FoundIn s) (hfree : (s.registry r).get? name = none) :
    T.FoundIn (addEntry s r name a) :=
  fun n b hmem => get?_addEntry hfree (h n b hmem)

theorem FoundIn.answer (h : T.FoundIn s) (ha : (s.registry T.call.registry).get? name = some a) :
    (T.answer name a).Sound s where
  found n b hmem := by
    obtain hmem | heq := List.mem_append.mp hmem
    · exact h n b hmem
    · obtain ⟨rfl, rfl⟩ := Prod.mk.inj (List.mem_singleton.mp heq)
      exact ha
  counting hpc := by
    obtain ⟨c, ns, pc, found⟩ := T
    cases c <;> cases hpc
  missed hm := by
    obtain ⟨c, ns, pc, found⟩ := T
    cases c <;> cases hm

theorem FoundIn.got (h : T.FoundIn s) (hT : T.names = name :: names)
    (ha : (s.registry T.call.registry).get? name = some a) : (T.got name a).Sound s := by
  unfold Thread.got
  split
  · refine ⟨h, ?_, by rintro r n ⟨⟩⟩
    rintro n t ⟨⟩ hhead
    obtain rfl : name = n := by simpa [hT] using hhead
    exact ha
  · exact h.answer ha

theorem Sound.congr (h : T.Sound s) (hs : ∀ r, s'.registry r = s.registry r) : T.Sound s' where
  found n b hmem := by rw [hs]; exact h.found n b hmem
  counting hpc hhead := by rw [hs]; exact h.counting hpc hhead
  missed hm := by rw [hs]; exact h.missed hm

theorem Sound.addEntry (h : T.Sound s) (hfree : (s.registry r).get? name = none)
    (hne : T.missed ≠ some (r, name)) : T.Sound (addEntry s r name a) where
  found := h.found.addEntry hfree
  counting hpc hhead := get?_addEntry hfree (h.counting hpc hhead)
  missed {r' n} hm := by
    rw [registry_addEntry]
    split_ifs with hr
    · subst hr
      rw [Table.get?_add, if_neg]
      · exact h.missed hm
      · rintro rfl
        exact hne hm
    · exact h.missed hm

end Thread

theorem registry_newObject (s : Store) (r : Registry) (name : CStr) (inUse : Bool) (r' : Registry) :
    (newObject s r name inUse).2.registry r' = s.registry r' := by
  cases r <;> rfl

theorem registry_tagIncRef (h : tagIncRef s t = .ok s') (r : Registry) :
    s'.registry r = s.registry r := by
  obtain ⟨T, -, heq⟩ := bind_eq_ok.mp h
  obtain rfl := Except.ok.inj heq
  cases r <;> rfl

theorem missed_answer (T : Thread) (name : CStr) (a : ℕ) : (T.answer name a).missed = none := by
  obtain ⟨c, ns, pc, found⟩ := T
  cases c <;> rfl

theorem missed_got (T : Thread) (name : CStr) (a : ℕ) : (T.got name a).missed = none := by
  unfold Thread.got
  split
  · rfl
  · exact missed_answer T name a

theorem Apart.of_none {T U : Thread} (h : T.missed = none) : Apart T U := by
  intro x hx
  rw [h] at hx
  cases hx

theorem keeps_threadStep {T T' : Thread} (hI : ∀ r, (s.registry r).Unique) (hT : T.Sound s)
    (h : threadStep s T = .ok (s', T')) : (∀ r, (s'.registry r).Unique) ∧ T'.Sound s' ∧
      ∀ {U : Thread}, U.Sound s → Apart T U → NotMissed T U → U.Sound s' ∧ Apart T' U := by
  obtain ⟨c, names, pc, found⟩ := T
  cases names with
  | nil =>
    cases h
    exact ⟨hI, hT, fun hU hapart _ => ⟨hU, hapart⟩⟩
  | cons name names =>
    cases pc with
    | checking =>
      cases hget : (s.registry c.registry).get? name with
      | some t =>
        simp only [threadStep, hget] at h
        cases h
        refine ⟨hI, ⟨hT.found, ?_, by rintro r n ⟨⟩⟩, fun hU _ _ => ⟨hU, .of_none rfl⟩⟩
        rintro n t ⟨⟩ ⟨⟩
        exact hget
      | none =>
        simp only [threadStep, hget] at h
        cases h
        exact ⟨hI, ⟨hT.found, by rintro n t ⟨⟩, by rintro r n ⟨⟩⟩, fun hU _ _ => ⟨hU, .of_none rfl⟩⟩
    | looking =>
      cases hget : (s.registry c.registry).get? name with
      | some a =>
        simp only [threadStep, hget] at h
        cases h
        exact ⟨hI, hT.found.got rfl hget, fun hU _ _ => ⟨hU, .of_none (missed_got _ name a)⟩⟩
      | none =>
        simp only [threadStep, hget] at h
        cases h
        refine ⟨hI, ⟨hT.found, by rintro n t ⟨⟩, ?_⟩, fun {U} hU _ hlook => ⟨hU, ?_⟩⟩
        · rintro r n ⟨⟩
          exact hget
        · -- the other thread has not missed this name
          rintro x ⟨⟩
          exact hlook.resolve_left (Option.some_ne_none _)
    | creating =>
      cases h
      -- the object is not in the registry yet
      have hsame := registry_newObject s c.registry name c.inUse
      refine ⟨fun r => hsame r ▸ hI r, ?_, fun hU hapart _ => ⟨hU.congr hsame, hapart⟩⟩
      have hT' := hT.congr hsame
      exact ⟨hT'.found, by rintro n t ⟨⟩, hT'.missed⟩
    | adding a =>
      cases h
      -- nobody has entered the name since this thread missed it
      have hfree : (s.registry c.registry).get? name = none := hT.missed rfl
      refine ⟨fun r => ?_, ?_, fun {U} hU hapart _ => ⟨?_, .of_none (missed_got _ name a)⟩⟩
      · rw [registry_addEntry]
        split_ifs
        · exact (hI _).add hfree
        · exact hI r
      · have hfound : Thread.FoundIn ⟨c, name :: names, .adding a, found⟩
            (addEntry s c.registry name a) := hT.found.addEntry hfree
        apply hfound.got rfl
        rw [registry_addEntry, if_pos rfl, Table.get?_add_self]
      · exact hU.addEntry hfree (hapart _ rfl)
    | counting t =>
      -- the count of a tag is no part of the registry
      obtain ⟨s₁, hcount, heq⟩ := bind_eq_ok.mp h
      cases heq
      have hsame := registry_tagIncRef hcount
      refine ⟨fun r => hsame r ▸ hI r, ?_, fun hU _ _ =>
        ⟨hU.congr hsame, .of_none (missed_answer _ name t)⟩⟩
      exact (hT.congr hsame).found.answer (by rw [hsame]; exact hT.counting rfl rfl)

theorem keeps_of_reaches {S : Interleaved Store Thread} (htags : s₀.tags.Unique)
    (hfiles : s₀.files.Unique) (run : Reaches systemStep (Interleaved.Meets NotMissed) ⟨s₀, []⟩ S) :
    S.Keeps (fun s => ∀ r, (s.registry r).Unique) (fun s T => T.Sound s) Apart := by
  refine Interleaved.keeps_of_reaches run ?_ Apart.symm ?_ fun hI hT hs => keeps_threadStep hI hT hs
  · refine ⟨fun r => ?_, fun hT => by simp at hT, fun _ hT => by simp at hT⟩
    cases r with
    | tags => exact htags
    | files => exact hfiles
  · intro s call _
    exact ⟨Thread.sound_init s call, fun U => .of_none (by cases call <;> rfl)⟩

theorem oneObjectPerName_of_keeps {S : Interleaved Store Thread}
    (h : S.Keeps (fun s => ∀ r, (s.registry r).Unique) (fun s T => T.Sound s) Apart) :
    OneObjectPerName S := by
  refine ⟨h.shared .tags, h.shared .files, ?_⟩
  intro T hT U hU hr name a b ha hb
  obtain ⟨i, hi⟩ := List.mem_iff_getElem?.mp hT
  obtain ⟨j, hj⟩ := List.mem_iff_getElem?.mp hU
  have hTa := (h.each hi).found name a ha
  have hUb := (h.each hj).found name b hb
  rw [hr, hUb] at hTa
  exact (Option.some.inj hTa).symm

theorem runsTo_of_missed {T : Thread} (h : T.missed = some (r, name)) (s : Store) :
    ∃ s' T' a, RunsTo threadStep s T s' T' ∧
      (s'.registry r).entries = (s.registry r).entries ++ [(name, a)] := by
  obtain ⟨c, names, pc, found⟩ := T
  cases names with
  | nil => cases pc <;> cases h
  | cons n names =>
    have hadd (s : Store) (a : ℕ) : RunsTo threadStep s ⟨c, n :: names, .adding a, found⟩
        (addEntry s c.registry n a) (Thread.got ⟨c, n :: names, .adding a, found⟩ n a) :=
      .head rfl (.refl _ _)
    have hentries (s : Store) (a : ℕ) : ((addEntry s c.registry n a).registry c.registry).entries =
        (s.registry c.registry).entries ++ [(n, a)] := by
      rw [registry_addEntry, if_pos rfl, Table.entries_add]
    cases pc with
    | checking => cases h
    | looking => cases h
    | creating =>
      cases h
      have hcreate : threadStep s ⟨c, name :: names, .creating, found⟩ =
          .ok ((newObject s c.registry name c.inUse).2,
            ⟨c, name :: names, .adding (newObject s c.registry name c.inUse).1, found⟩) := rfl
      refine ⟨_, _, (newObject s c.registry name c.inUse).1, .head hcreate (hadd _ _), ?_⟩
      rw [hentries, registry_newObject]
    | adding a =>
      cases h
      exact ⟨_, _, _, hadd s a, hentries s a⟩
    | counting t => cases h

theorem missed_of_looksUp {T : Thread} (h : T.looksUp = some (r, name))
    (hfree : (s.registry r).get? name = none) :
    ∃ T', threadStep s T = .ok (s, T') ∧ T'.missed = some (r, name) := by
  obtain ⟨c, names, pc, found⟩ := T
  cases names with
  | nil => cases pc <;> cases h
  | cons n names =>
    cases pc with
    | looking =>
      cases h
      refine ⟨⟨c, name :: names, .creating, found⟩, ?_, rfl⟩
      simp only [threadStep, hfree]
    | checking => cases h
    | creating => cases h
    | adding a => cases h
    | counting t => cases h

theorem exists_two_entries {S : Interleaved Store Thread} {i j : ℕ} {T U : Thread} (hij : i ≠ j)
    (hT : S.threads[i]? = some T) (hU : S.threads[j]? = some U)
    (hlook : T.looksUp = some (r, name)) (hmiss : U.missed = some (r, name))
    (hfree : (S.shared.registry r).get? name = none) :
    ∃ S', Reaches systemStep (fun _ _ => True) S S' ∧ ¬ (S'.shared.registry r).Unique := by
  obtain ⟨T₁, hs, hmissT⟩ := missed_of_looksUp hlook hfree
  obtain ⟨s₁, T₂, a, hrunT, hentT⟩ := runsTo_of_missed hmissT S.shared
  obtain ⟨s₂, U₂, b, hrunU, hentU⟩ := runsTo_of_missed hmiss s₁
  have hreachT : Reaches systemStep (fun _ _ => True) S ⟨s₁, S.threads.set i T₂⟩ :=
    RunsTo.reaches (.head hs hrunT) hT
  have hU' : (S.threads.set i T₂)[j]? = some U := by rw [List.getElem?_set_ne hij, hU]
  have hreachU : Reaches systemStep (fun _ _ => True) ⟨s₁, S.threads.set i T₂⟩
      ⟨s₂, (S.threads.set i T₂).set j U₂⟩ := RunsTo.reaches hrunU hU'
  refine ⟨_, hreachT.trans hreachU, fun hunique => ?_⟩
  have hkeys : (s₂.registry r).keys = (S.shared.registry r).keys ++ [name, name] := by
    simp [Table.keys, hentU, hentT]
  unfold Table.Unique at hunique
  rw [hkeys] at hunique
  exact absurd (List.nodup_append.mp hunique).2.1 (by simp)

theorem reaches_callAlone {S : Interleaved Store Thread} {c : Call}
    (h : callAlone S.shared c = .ok (found, s')) :
    Reaches systemStep (fun _ _ => True) S ⟨s', S.threads ++ [⟨c, [], c.entry, found⟩]⟩ := by
  have hlast : (S.threads ++ [Thread.init c])[S.threads.length]? = some (.init c) := by simp
  have hrun : Reaches systemStep (fun _ _ => True) ⟨S.shared, S.threads ++ [.init c]⟩ _ :=
    RunsTo.reaches (S := ⟨S.shared, S.threads ++ [.init c]⟩) (runsTo_callAlone h) hlast
  rw [List.set_append_right _ _ le_rfl, Nat.sub_self] at hrun
  have hstart : systemStep S (.start c) = .ok ⟨S.shared, S.threads ++ [.init c]⟩ := rfl
  exact .head trivial hstart hrun

/-- In a run in which no name is looked up while another thread has missed it, there is one object
for each name at every moment. Such a look-up can be followed by steps that make it two. A call
that is not interrupted gives what its definition gives. -/
theorem oneObjectPerName_of_reaches {S : Interleaved Store Thread} (htags : s₀.tags.Unique)
    (hfiles : s₀.files.Unique)
    (run : Reaches systemStep (Interleaved.Meets NotMissed) ⟨s₀, []⟩ S) : OneObjectPerName S ∧
      (∀ e : Turn Call, ¬ S.Meets NotMissed e →
        ∃ S', Reaches systemStep (fun _ _ => True) S S' ∧ ¬ OneObjectPerName S') ∧
      ∀ c found s', callAlone S.shared c = .ok (found, s') →
        Reaches systemStep (fun _ _ => True) S ⟨s', S.threads ++ [⟨c, [], c.entry, found⟩]⟩ := by
  have hkeeps := keeps_of_reaches htags hfiles run
  refine ⟨oneObjectPerName_of_keeps hkeeps, ?_, fun c found s' => reaches_callAlone⟩
  rintro (call | i) hno
  · exact absurd trivial hno
  simp only [Interleaved.Meets, NotMissed] at hno
  push Not at hno
  obtain ⟨T, hT, j, -, hji, U, hU, hlook, hmiss⟩ := hno
  obtain ⟨⟨r, name⟩, hx⟩ := Option.ne_none_iff_exists'.mp hlook
  rw [hx] at hmiss
  have hfree := (hkeeps.each hU).missed hmiss
  obtain ⟨S', hrun, htwo⟩ := exists_two_entries hji.symm hT hU hx hmiss hfree
  refine ⟨S', hrun, fun hone => htwo ?_⟩
  cases r with
  | tags => exact hone.tags
  | files => exact hone.files

/-- A path of two tags, and a call that asks for one of them when it has been entered. -/
theorem oneObjectPerName_of_reaches_sample : ∃ S : Interleaved Store Thread, S.threads.length = 3 ∧
    OneObjectPerName S ∧ (∀ e : Turn Call, ¬ S.Meets NotMissed e →
      ∃ S', Reaches systemStep (fun _ _ => True) S S' ∧ ¬ OneObjectPerName S') ∧
    ∀ c found s', callAlone S.shared c = .ok (found, s') →
      Reaches systemStep (fun _ _ => True) S ⟨s', S.threads ++ [⟨c, [], c.entry, found⟩]⟩ := by
  have hrun : (execute systemStep (Interleaved.Meets NotMissed)
      [.start (.computeSelectedTags (samplePath [nameX] nameY)), .start (.fileGetOrCreate nameX),
        .act 0, .act 0, .act 1, .act 0, .act 1, .act 0, .start (.tagGetOrCreate nameX),
        .act 2, .act 0, .act 2, .act 1, .act 0] ⟨.init, []⟩).any (fun S => S.threads.length = 3) =
        true := by decide +kernel
  obtain ⟨S, hS, hlen⟩ := (Option.any_eq_true _ _).mp hrun
  exact ⟨S, of_decide_eq_true hlen,
    oneObjectPerName_of_reaches Table.unique_empty Table.unique_empty (reaches_of_execute hS)⟩

/-- Two threads ask for the same tag. Both look it up before one of them enters it. -/
theorem two_objects_for_name : ∃ S, Reaches systemStep (fun _ _ => True) ⟨.init, []⟩ S ∧
    ¬ OneObjectPerName S ∧ S.threads.map Thread.found = [[(nameX, 0)], [(nameX, 1)]] := by
  have hrun : (execute systemStep (fun _ _ => True)
      [.start (.tagGetOrCreate nameX), .start (.tagGetOrCreate nameX), .act 0, .act 1, .act 0, .act 0,
        .act 1, .act 1, .act 0, .act 1] ⟨.init, []⟩).any (fun S =>
          ¬ S.shared.tags.keys.Nodup ∧
            S.threads.map Thread.found = [[(nameX, 0)], [(nameX, 1)]]) = true := by decide +kernel
  obtain ⟨S, hS, hp⟩ := (Option.any_eq_true _ _).mp hrun
  obtain ⟨htwo, hfound⟩ := of_decide_eq_true hp
  exact ⟨S, reaches_of_execute hS, fun hone => htwo hone.tags, hfound⟩

end TagFilesystem.Fuse
