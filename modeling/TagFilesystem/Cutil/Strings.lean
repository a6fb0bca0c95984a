import Mathlib.Data.List.DropRight
import Mathlib.Data.List.Induction

/-!
# C strings and paths

The string functions of `cutil/string2.c` and `util.c`, and the parts of libc they rest on:
`strtok_r`, `basename` and `dirname` of `libgen.h`. A string is the list of its bytes before
the terminating NUL.
-/

namespace TagFilesystem

/-- A byte of a string: anything but NUL. -/
abbrev CChar := {b : UInt8 // b ≠ 0}

abbrev CStr := List CChar

/-- The string in a buffer: the bytes before the first NUL. -/
def cstr : List UInt8 → CStr
  | [] => []
  | b :: buffer => if h : b ≠ 0 then ⟨b, h⟩ :: cstr buffer else []

def slash : CChar := ⟨47, by decide⟩

def dot : CStr := cstr [46]

/-- The string `..`. -/
def dotdot : CStr := dot ++ dot

def getCharacterCount (str : CStr) (c : CChar) : ℕ := str.count c

def appendDir (dir file : CStr) : CStr := dir ++ slash :: file

/-- The successive results of `strtok_r`: the maximal runs of bytes that are no delimiter. -/
def strtok (str delim : CStr) : List CStr :=
  (str.splitOnP fun c => c ∈ delim).filter fun p => p ≠ []

/-- `string_split`. The pieces are put at the front of a list, and the buffer is filled from
its end while that list is read from its front. -/
def stringSplit (str delim : CStr) : List CStr :=
  ((strtok str delim).foldl (fun li p => p :: li) []).reverse

/-- `basename`: what follows the last slash, once trailing slashes are dropped. -/
def basename (p : CStr) : CStr :=
  if p = [] then dot
  else
    let q := p.rdropWhile (· = slash)
    if q = [] then [slash] else q.rtakeWhile (· ≠ slash)

/-- `dirname`: what stands before the last component. A path that begins with exactly two
slashes and has nothing else before its last component keeps both. -/
def dirname (p : CStr) : CStr :=
  let q := p.rdropWhile (· = slash)
  let d := (if q = [] then p else q).rdropWhile (· ≠ slash)
  if d = [] then dot
  else
    let e := d.rdropWhile (· = slash)
    if e ≠ [] then e else if d.length = 2 then [slash, slash] else [slash]

/-- The components of a path, as `compute_selected_tags` reads them. The path `.`, which
`dirname` gives for a path without slash, has none. -/
def components (dirpath : CStr) : List CStr := if dirpath = dot then [] else stringSplit dirpath [slash]

/-- A path component: not empty and without slash. -/
def IsName (n : CStr) : Prop := n ≠ [] ∧ slash ∉ n

instance (n : CStr) : Decidable (IsName n) := inferInstanceAs (Decidable (_ ∧ _))

/-- The path `/d₁/…/dₖ` of a list of directories. -/
def dirPath (ds : List CStr) : CStr := ds.flatMap fun d => slash :: d

theorem stringSplit_eq_strtok (str delim : CStr) : stringSplit str delim = strtok str delim := by
  have h (l acc : List CStr) : l.foldl (fun li p => p :: li) acc = l.reverse ++ acc := by
    induction l generalizing acc with
    | nil => rfl
    | cons p l ih => simp [ih]
  simp [stringSplit, h]

theorem strtok_append_slash (a b : CStr) :
    strtok (a ++ slash :: b) [slash] = strtok a [slash] ++ strtok b [slash] := by
  rw [strtok, List.splitOnP_append_cons _ _ (by simp), List.filter_append]
  rfl

@[simp] theorem strtok_nil : strtok [] [slash] = [] := rfl

theorem strtok_name {n : CStr} (hn : IsName n) : strtok n [slash] = [n] := by
  have h : ∀ c ∈ n, decide (c ∈ [slash]) = false := by
    intro c hc
    simp only [List.mem_singleton, decide_eq_false_iff_not]
    rintro rfl
    exact hn.2 hc
  rw [strtok, List.splitOnP_eq_singleton h]
  simp [hn.1]

theorem strtok_rdropWhile (a : CStr) : strtok (a.rdropWhile (· = slash)) [slash] = strtok a [slash] := by
  induction a using List.reverseRecOn with
  | nil => rfl
  | append_singleton a c ih =>
    by_cases hc : c = slash
    · subst hc
      rw [List.rdropWhile_concat_pos _ _ _ (by simp), ih, strtok_append_slash, strtok_nil,
        List.append_nil]
    · rw [List.rdropWhile_concat_neg _ _ _ (by simpa using hc)]

theorem components_ne_dot {p : CStr} (hp : p ≠ dot) : components p = strtok p [slash] := by
  rw [components, if_neg hp, stringSplit_eq_strtok]

theorem strtok_dirPath {ds : List CStr} (hd : ∀ d ∈ ds, IsName d) :
    strtok (dirPath ds) [slash] = ds := by
  induction ds with
  | nil => rfl
  | cons d ds ih =>
    have hds := ih fun x hx => hd x (List.mem_cons_of_mem d hx)
    have hdn := strtok_name (hd d List.mem_cons_self)
    have h : strtok (slash :: (d ++ dirPath ds)) [slash] = strtok (d ++ dirPath ds) [slash] := by
      simpa using strtok_append_slash [] (d ++ dirPath ds)
    change strtok (slash :: (d ++ dirPath ds)) [slash] = d :: ds
    rw [h]
    cases ds with
    | nil => simpa [dirPath] using hdn
    | cons d' ds =>
      have hs : dirPath (d' :: ds) = slash :: (d' ++ dirPath ds) := rfl
      rw [hs] at hds ⊢
      rw [strtok_append_slash, hdn]
      have h' : strtok (slash :: (d' ++ dirPath ds)) [slash] = strtok (d' ++ dirPath ds) [slash] := by
        simpa using strtok_append_slash [] (d' ++ dirPath ds)
      rw [← h', hds]
      rfl

section Name

variable {n : CStr} (hn : IsName n)
include hn

theorem rdropWhile_slash_name (a : CStr) : (a ++ n).rdropWhile (· = slash) = a ++ n := by
  rw [List.rdropWhile_eq_self_iff]
  intro hl h
  have hmem := List.getLast_mem hn.1
  rw [List.getLast_append_of_ne_nil hl hn.1] at h
  simp only [decide_eq_true_eq] at h
  exact hn.2 (h ▸ hmem)

theorem rdropWhile_ne_slash_name (a : CStr) :
    (a ++ slash :: n).rdropWhile (· ≠ slash) = a ++ [slash] := by
  have h (m : CStr) (hm : slash ∉ m) :
      (a ++ slash :: m).rdropWhile (· ≠ slash) = a ++ [slash] := by
    induction m using List.reverseRecOn with
    | nil => rw [List.rdropWhile_concat_neg _ _ _ (by simp)]
    | append_singleton m c ih =>
      have hc : c ≠ slash := fun h => hm (by simp [h])
      have ha : a ++ slash :: (m ++ [c]) = (a ++ slash :: m) ++ [c] := by simp
      rw [ha, List.rdropWhile_concat_pos _ _ _ (by simpa using hc)]
      exact ih fun hs => hm (List.mem_append_left _ hs)
  exact h n hn.2

theorem basename_child (a : CStr) : basename (a ++ slash :: n) = n := by
  have hq : (a ++ slash :: n).rdropWhile (· = slash) = a ++ slash :: n := by
    have h := rdropWhile_slash_name hn (a ++ [slash])
    rwa [List.append_assoc] at h
  have ht : (a ++ slash :: n).rtakeWhile (· ≠ slash) = n := by
    have h := List.rdropWhile_append_rtakeWhile (p := fun c => decide (c ≠ slash)) (l := a ++ slash :: n)
    rw [rdropWhile_ne_slash_name hn] at h
    have he : a ++ slash :: n = (a ++ [slash]) ++ n := by simp
    rw [he] at h ⊢
    exact List.append_cancel_left h
  simp only [basename, hq, ht]
  simp

theorem basename_name : basename n = n := by
  have hq := rdropWhile_slash_name hn []
  rw [List.nil_append] at hq
  have ht : n.rtakeWhile (· ≠ slash) = n := by
    rw [List.rtakeWhile_eq_self_iff]
    intro c hc
    simpa using fun h : c = slash => hn.2 (h ▸ hc)
  simp only [basename, hq, ht, hn.1, if_false]

theorem dirname_name : dirname n = dot := by
  have hq := rdropWhile_slash_name hn []
  rw [List.nil_append] at hq
  have hd : n.rdropWhile (· ≠ slash) = [] := by
    rw [List.rdropWhile_eq_nil_iff]
    intro c hc
    simpa using fun h : c = slash => hn.2 (h ▸ hc)
  simp only [dirname, hq, hn.1, if_false, hd, if_true]

theorem dirname_child (a : CStr) : dirname (a ++ slash :: n) =
    if a.rdropWhile (· = slash) ≠ [] then a.rdropWhile (· = slash)
    else if a.length = 1 then [slash, slash] else [slash] := by
  have hq : (a ++ slash :: n).rdropWhile (· = slash) = a ++ slash :: n := by
    have h := rdropWhile_slash_name hn (a ++ [slash])
    rwa [List.append_assoc] at h
  have he : (a ++ [slash]).rdropWhile (· = slash) = a.rdropWhile (· = slash) :=
    List.rdropWhile_concat_pos _ _ _ (by simp)
  have hr : (if a ++ slash :: n = [] then a ++ slash :: n else a ++ slash :: n) = a ++ slash :: n :=
    ite_self _
  simp only [dirname, hq, hr, rdropWhile_ne_slash_name hn, he]
  simp

theorem strtok_dirname_child (a : CStr) : strtok (dirname (a ++ slash :: n)) [slash] =
    strtok a [slash] := by
  rw [dirname_child hn]
  split_ifs with h h'
  · exact strtok_rdropWhile a
  all_goals
    rw [← strtok_rdropWhile a, not_not.mp h]
    rfl

theorem dirname_child_ne_dot {a : CStr} (ha : ∀ c, a.head? = some c → c = slash) :
    dirname (a ++ slash :: n) ≠ dot := by
  rw [dirname_child hn]
  split_ifs with h h'
  · intro hd
    have hp := List.rdropWhile_prefix (fun c => decide (c = slash)) a
    rw [hd] at hp
    obtain ⟨t, rfl⟩ := hp
    have := ha _ rfl
    exact absurd this (by decide)
  all_goals decide

theorem components_dirname_child {a : CStr} (ha : ∀ c, a.head? = some c → c = slash) :
    components (dirname (a ++ slash :: n)) = strtok a [slash] := by
  rw [components_ne_dot (dirname_child_ne_dot hn ha), strtok_dirname_child hn]

end Name

theorem basename_mem_strtok {p : CStr} (hp : p.rdropWhile (· = slash) ≠ []) :
    basename p ∈ strtok p [slash] := by
  rw [← strtok_rdropWhile]
  set q := p.rdropWhile (· = slash) with hq
  have hp0 : p ≠ [] := by
    rintro rfl
    exact hp rfl
  set m := q.rtakeWhile (· ≠ slash) with hm
  have hbase : basename p = m := by
    rw [basename, if_neg hp0, ← hq, if_neg hp]
  have hsplit : q.rdropWhile (· ≠ slash) ++ m = q := List.rdropWhile_append_rtakeWhile
  -- the last byte of `q` is no slash
  have hlast : q.getLast hp ≠ slash := by
    have h := List.rdropWhile_last_not (fun c => decide (c = slash)) p (hq ▸ hp)
    simpa [hq] using h
  have hname : IsName m := by
    constructor
    · intro hnil
      rw [hm, List.rtakeWhile_eq_nil_iff] at hnil
      exact hnil hp (by simpa using hlast)
    · intro hs
      have h := List.mem_rtakeWhile_imp hs
      simp at h
  rw [hbase, ← hsplit]
  cases ha : q.rdropWhile (· ≠ slash) using List.reverseRecOn with
  | nil => simp [strtok_name hname]
  | append_singleton a c =>
    have hc : c = slash := by
      have h := List.rdropWhile_last_not (fun c => decide (c ≠ slash)) q (by rw [ha]; simp)
      simp only [ha, List.getLast_append_singleton] at h
      simpa using h
    subst hc
    rw [List.append_assoc, List.singleton_append, strtok_append_slash, strtok_name hname]
    simp

theorem basename_mem_components {p : CStr} (hp : components p ≠ []) : basename p ∈ components p := by
  have hdot : p ≠ dot := by
    rintro rfl
    exact hp rfl
  rw [components_ne_dot hdot] at hp ⊢
  refine basename_mem_strtok fun hq => hp ?_
  rw [← strtok_rdropWhile, hq, strtok_nil]

theorem basename_of_slashes {p : CStr} (hp : p.rdropWhile (· = slash) = []) :
    basename p = dot ∨ basename p = [slash] := by
  unfold basename
  rw [hp]
  split_ifs
  · exact .inl rfl
  · exact .inr (if_pos rfl)

theorem basename_of_components_nil {p : CStr} (hp : components p = []) :
    basename p = dot ∨ basename p = [slash] := by
  by_cases hdot : p = dot
  · subst hdot
    exact .inl (by decide)
  rw [components_ne_dot hdot] at hp
  refine basename_of_slashes (not_not.mp fun hq => ?_)
  have hmem := basename_mem_strtok hq
  rw [hp] at hmem
  cases hmem

theorem strtok_rdropWhile_subset (q : CStr) :
    ∀ c ∈ strtok (q.rdropWhile (· ≠ slash)) [slash], c ∈ strtok q [slash] := by
  intro c hc
  have hsplit : q.rdropWhile (· ≠ slash) ++ q.rtakeWhile (· ≠ slash) = q :=
    List.rdropWhile_append_rtakeWhile
  cases ha : q.rdropWhile (· ≠ slash) using List.reverseRecOn with
  | nil =>
    rw [ha] at hc
    cases hc
  | append_singleton a b =>
    have hb : b = slash := by
      have h := List.rdropWhile_last_not (fun c => decide (c ≠ slash)) q (by rw [ha]; simp)
      simp only [ha, List.getLast_append_singleton] at h
      simpa using h
    subst hb
    rw [ha, strtok_append_slash, strtok_nil, List.append_nil] at hc
    rw [← hsplit, ha, List.append_assoc, List.singleton_append, strtok_append_slash]
    exact List.mem_append_left _ hc

theorem components_dirname_subset {p c : CStr} (hc : c ∈ components (dirname p)) :
    c ∈ strtok p [slash] := by
  have hdot : dirname p ≠ dot := by
    intro h
    rw [h] at hc
    cases hc
  rw [components_ne_dot hdot] at hc
  obtain ⟨r, hr, hdir⟩ : ∃ r, strtok r [slash] = strtok p [slash] ∧ dirname p =
      if r.rdropWhile (· ≠ slash) = [] then dot
      else if (r.rdropWhile (· ≠ slash)).rdropWhile (· = slash) ≠ [] then
        (r.rdropWhile (· ≠ slash)).rdropWhile (· = slash)
      else if (r.rdropWhile (· ≠ slash)).length = 2 then [slash, slash] else [slash] := by
    refine ⟨if p.rdropWhile (· = slash) = [] then p else p.rdropWhile (· = slash), ?_, rfl⟩
    split_ifs
    · rfl
    · exact strtok_rdropWhile p
  rw [hdir] at hc hdot
  rw [← hr]
  split_ifs at hc hdot
  · exact absurd rfl hdot
  · rw [strtok_rdropWhile] at hc
    exact strtok_rdropWhile_subset r c hc
  · cases hc
  · cases hc

theorem length_strtok (p : CStr) : (strtok p [slash]).length ≤ p.length + 1 := by
  have hpieces (p : CStr) : (p.splitOnP fun c => c ∈ [slash]).length ≤ p.length + 1 := by
    induction p with
    | nil => simp
    | cons c p ih =>
      rw [List.splitOnP_cons_eq_if_modifyHead]
      split_ifs
      · simpa using ih
      · rw [List.length_modifyHead, List.length_cons]
        omega
  exact (List.length_filter_le _ _).trans (hpieces p)

theorem length_components_dirname (p : CStr) : (components (dirname p)).length ≤ p.length + 1 := by
  have hle {a : CStr} (ha : a.length ≤ p.length) : (components a).length ≤ p.length + 1 := by
    unfold components
    split_ifs
    · exact Nat.zero_le _
    · rw [stringSplit_eq_strtok]
      exact (length_strtok a).trans (Nat.succ_le_succ ha)
  have hdrop (a : CStr) (f : CChar → Bool) : (a.rdropWhile f).length ≤ a.length :=
    (List.rdropWhile_prefix f a).length_le
  have hslash : (components [slash]).length = 0 := by decide
  have hslashes : (components [slash, slash]).length = 0 := by decide
  -- what is cut off the end makes the path shorter, and a directory of slashes has no components
  have hcut (q : CStr) (hq : q.length ≤ p.length) :
      ((q.rdropWhile (· ≠ slash)).rdropWhile (· = slash)).length ≤ p.length :=
    (hdrop _ _).trans ((hdrop _ _).trans hq)
  unfold dirname
  dsimp only
  split_ifs
  · exact Nat.zero_le _
  · exact hle (hcut p (le_refl _))
  · omega
  · omega
  · exact Nat.zero_le _
  · exact hle (hcut _ (hdrop _ _))
  · omega
  · omega

theorem dirPath_head (ds : List CStr) : ∀ c, (dirPath ds).head? = some c → c = slash := by
  cases ds with
  | nil => simp [dirPath]
  | cons d ds =>
    intro c hc
    simpa [dirPath, eq_comm] using hc

theorem components_dirname_dirPath {ds : List CStr} {f : CStr} (hd : ∀ d ∈ ds, IsName d)
    (hf : IsName f) : components (dirname (dirPath ds ++ slash :: f)) = ds := by
  rw [components_dirname_child hf (dirPath_head ds), strtok_dirPath hd]

theorem dirname_dirPath {ds : List CStr} {f : CStr} (hd : ∀ d ∈ ds, IsName d) (hf : IsName f)
    (hne : ds ≠ []) : dirname (dirPath ds ++ slash :: f) = dirPath ds := by
  obtain ⟨es, e, rfl⟩ := (List.eq_nil_or_concat ds).resolve_left hne
  have he : IsName e := hd e (by simp)
  have hs : dirPath (es.concat e) = (dirPath es ++ [slash]) ++ e := by simp [dirPath]
  have hr := rdropWhile_slash_name he (dirPath es ++ [slash])
  rw [← hs] at hr
  have hnil : dirPath (es.concat e) ≠ [] := by
    rw [hs]
    simp
  rw [dirname_child hf, hr, if_pos hnil]

theorem getCharacterCount_dirPath {ds : List CStr} (hd : ∀ d ∈ ds, IsName d) :
    getCharacterCount (dirPath ds) slash = ds.length := by
  induction ds with
  | nil => rfl
  | cons d ds ih =>
    have hds := ih fun x hx => hd x (List.mem_cons_of_mem d hx)
    have h0 : d.count slash = 0 := List.count_eq_zero.mpr (hd d List.mem_cons_self).2
    have hs : dirPath (d :: ds) = slash :: (d ++ dirPath ds) := rfl
    simp only [getCharacterCount] at hds ⊢
    rw [hs, List.count_cons_self, List.count_append, h0, hds, List.length_cons]
    omega

end TagFilesystem
