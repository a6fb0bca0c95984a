import TagFilesystem.Decimal
import TagFilesystem.FuseSqlite3.Queries
import TagFilesystem.Fuse.PathSpec
import Mathlib.Data.List.Perm.Subperm

namespace TagFilesystem.FuseSqlite3

variable {s : Store} {db db₀ db' : Database} {sel : HashTable (Option TagId)} {Ts : List Tag}
  {ids : List ℤ} {i fid : ℤ} {v w : CStr} {ts : List Token} {rows : List (ℤ × ℤ)}

/-- `tag_id_list_string`; the flag is `first`. -/
def tagIdListString (s : Store) (selectedTags : HashTable (Option TagId)) : Except Fault CStr :=
  Prod.fst <$> forEach selectedTags.entries (fun (r : CStr × Bool) e => do
    let T ← s.readTag e.2
    .ok (r.1 ++ (if r.2 then [] else sql ", ") ++ formatInt T.id, false)) ([], true)

def matchQuery (fid : ℤ) (tlist : CStr) : CStr :=
  sql "SELECT COUNT(t_id) FROM tag_file WHERE f_id = " ++ formatInt fid ++ sql " AND t_id IN (" ++
    tlist ++ sql ")"

def equalsSign : CChar := ⟨61, by decide⟩

/-- A number with or without a minus sign. -/
def integer? : List Token → Option (ℤ × List Token)
  | .other c :: .word w :: ts =>
    if c = minusSign ∧ w.all isDigit = true then some (-decimalValue w, ts) else none
  | .word w :: ts => if w.all isDigit = true then some (decimalValue w, ts) else none
  | _ => none

/-- At most so many numbers, up to a closing parenthesis. -/
def integers? : ℕ → List Token → Option (List ℤ × List Token)
  | 0, _ => none
  | fuel + 1, ts => do
    let (i, ts) ← integer? ts
    match ts with
    | .comma :: ts => (integers? fuel ts).map fun r => (i :: r.1, r.2)
    | .rparen :: ts => some ([i], ts)
    | _ => none

/-- The source `q` under `column = number` or `column IN (numbers)`. The list may be empty. -/
def condition? (q : Query CStr Value) (ts : List Token) : Option (Query CStr Value × List Token) :=
  match name? ts with
  | none => none
  | some (column, .other c :: ts) =>
    if c = equalsSign then
      (integer? ts).map fun r => (.whereIn q column false [.integer r.1], r.2)
    else none
  | some (column, ts) =>
    match keyword? "IN" ts with
    | some (.lparen :: .rparen :: ts) => some (.whereIn q column false [], ts)
    | some (.lparen :: ts) =>
      (integers? ts.length ts).map fun r => (.whereIn q column false (r.1.map .integer), r.2)
    | _ => none

/-- `SELECT COUNT(column) FROM table WHERE .. AND ..`, as the query whose rows are counted. -/
def countQuery? (ts : List Token) : Option (Query CStr Value) := do
  let ts ← keyword? "SELECT" ts
  let ts ← keyword? "COUNT" ts
  match ts with
  | .lparen :: .word column :: .rparen :: ts => do
    let ts ← keyword? "FROM" ts
    let (table, ts) ← name? ts
    let ts ← keyword? "WHERE" ts
    let (q, ts) ← condition? (.table table) ts
    let ts ← keyword? "AND" ts
    let (q, ts) ← condition? q ts
    if ts = [] then some (.select false column q) else none
  | _ => none

/-- The text of the one column of the one row of the result. -/
def countText (db : Database) (query : CStr) : Option CStr := do
  let ts ← tokens query
  let q ← countQuery? ts
  some (decimal (q.eval db.rows).length)

/-- `db_file_match_tags`, with the text of the query; `dbFileMatchTags` is its result. -/
def dbFileMatchTagsQuery (s : Store) (fid : ℤ) (selectedTags : HashTable (Option TagId)) :
    Except Fault Bool := do
  let tlist ← tagIdListString s selectedTags
  match countText s.db (matchQuery fid tlist) with
  | none => .ok false
  | some count => .ok (if atoi count ≠ selectedTags.size then false else true)

/-- The numbers with a comma between two. -/
def joinInts : List ℤ → CStr
  | [] => []
  | i :: ids => formatInt i ++ ids.flatMap fun j => sql ", " ++ formatInt j

theorem joinInts_append (i : ℤ) : joinInts (ids ++ [i]) =
    joinInts ids ++ (if ids = [] then [] else sql ", ") ++ formatInt i := by
  cases ids with
  | nil => simp [joinInts]
  | cons j ids => simp [joinInts]

theorem tagIdListString_eq (s : Store) (sel : HashTable (Option TagId)) :
    tagIdListString s sel = joinInts <$> tagIdList s sel := by
  -- the separator is left out exactly while the list of numbers is empty
  have hloop (l : List (CStr × Option TagId)) (ids : List ℤ) :
      Prod.fst <$> forEach l (fun (r : CStr × Bool) e => do
        let T ← s.readTag e.2
        .ok (r.1 ++ (if r.2 then [] else sql ", ") ++ formatInt T.id, false))
          (joinInts ids, decide (ids = [])) =
      joinInts <$> forEach l (fun ids e => do
        let T ← s.readTag e.2
        .ok (ids ++ [T.id])) ids := by
    induction l generalizing ids with
    | nil => rfl
    | cons e l ih =>
      rw [forEach_cons, forEach_cons]
      cases hT : s.readTag e.2 with
      | error x => rfl
      | ok T =>
        have hnext := ih (ids ++ [T.id])
        rw [joinInts_append] at hnext
        simpa [ok_bind] using hnext
  exact hloop sel.entries []

/-- The tokens of a printed number. -/
def intTokens (i : ℤ) : List Token :=
  (if i < 0 then [.other minusSign] else []) ++ [.word (decimal i.natAbs)]

/-- The numbers of a list and the parenthesis that closes it. -/
def intsTokens : List ℤ → List Token
  | [] => [.rparen]
  | i :: ids => intTokens i ++ (ids.flatMap fun j => .comma :: intTokens j) ++ [.rparen]

def matchTokens (fid : ℤ) (ids : List ℤ) : List Token :=
  [.word (sql "SELECT"), .word (sql "COUNT"), .lparen, .word (sql "t_id"), .rparen,
    .word (sql "FROM"), .word (sql "tag_file"), .word (sql "WHERE"), .word (sql "f_id"),
    .other equalsSign] ++ intTokens fid ++
    [.word (sql "AND"), .word (sql "t_id"), .word (sql "IN"), .lparen] ++ intsTokens ids

theorem isWordChar_of_isDigit {c : CChar} (hc : isDigit c = true) : isWordChar c = true := by
  unfold isDigit at hc
  simp [isWordChar, hc]

theorem readChars_word (hw : w.all isDigit = true) : readChars (.word v) w = ([], .word (v ++ w)) := by
  induction w generalizing v with
  | nil => simp [readChars]
  | cons c w ih =>
    obtain ⟨hc, hrest⟩ : isDigit c = true ∧ w.all isDigit = true := by simpa using hw
    have hread : readChar (.word v) c = ([], .word (v ++ [c])) := by
      simp [readChar, isWordChar_of_isDigit hc]
    rw [readChars_cons, hread, ih hrest]
    simp

theorem startToken_digit {c : CChar} (hc : isDigit c = true) : startToken c = ([], .word [c]) := by
  have hquote : c ≠ singleQuote := by
    rintro rfl
    exact absurd hc (by decide)
  simp [startToken, not_isspace_of_isDigit hc, hquote, isWordChar_of_isDigit hc]

theorem readChars_decimal (n : ℕ) : readChars .between (decimal n) = ([], .word (decimal n)) := by
  have hall := all_isDigit_decimal n
  cases hw : decimal n with
  | nil => exact absurd hw (decimal_ne_nil n)
  | cons c w =>
    obtain ⟨hc, hrest⟩ : isDigit c = true ∧ w.all isDigit = true := by simpa [hw] using hall
    have hread : readChar .between c = ([], .word [c]) := startToken_digit hc
    rw [readChars_cons, hread, readChars_word hrest]
    rfl

theorem readChars_formatInt {m : Mode} (i : ℤ)
    (hw : readChars (.word (decimal i.natAbs)) w = (.word (decimal i.natAbs) :: ts, m)) :
    readChars .between (formatInt i ++ w) = (intTokens i ++ ts, m) := by
  unfold formatInt intTokens
  have hnumber := readChars_append (readChars_decimal i.natAbs) hw
  split_ifs with hi
  · -- the sign is a token of its own
    have hsign : readChars .between [minusSign] = ([.other minusSign], .between) := rfl
    have hall := readChars_append hsign hnumber
    exact hall
  · exact hnumber

theorem readChars_ints_rest (i : ℤ) (ids : List ℤ) :
    readChars .between (formatInt i ++ ((ids.flatMap fun j => sql ", " ++ formatInt j) ++ sql ")")) =
      (intTokens i ++ ((ids.flatMap fun j => .comma :: intTokens j) ++ [.rparen]), .between) := by
  induction ids generalizing i with
  | nil =>
    apply readChars_formatInt i
    rfl
  | cons j ids ih =>
    have hsep : readChars (.word (decimal i.natAbs)) (sql ", ") =
        ([.word (decimal i.natAbs), .comma], .between) := rfl
    have hall := readChars_formatInt i (readChars_append hsep (ih j))
    simpa using hall

theorem readChars_ints (ids : List ℤ) :
    readChars .between (joinInts ids ++ sql ")") = (intsTokens ids, .between) := by
  cases ids with
  | nil => rfl
  | cons i ids =>
    have h := readChars_ints_rest i ids
    simpa [joinInts, intsTokens] using h

theorem tokens_matchQuery (fid : ℤ) (ids : List ℤ) :
    tokens (matchQuery fid (joinInts ids)) = some (matchTokens fid ids) := by
  have hhead : readChars .between (sql "SELECT COUNT(t_id) FROM tag_file WHERE f_id = ") =
      ([.word (sql "SELECT"), .word (sql "COUNT"), .lparen, .word (sql "t_id"), .rparen,
        .word (sql "FROM"), .word (sql "tag_file"), .word (sql "WHERE"), .word (sql "f_id"),
        .other equalsSign], .between) := rfl
  have hand : readChars (.word (decimal fid.natAbs)) (sql " AND t_id IN (") =
      (.word (decimal fid.natAbs) ::
        [.word (sql "AND"), .word (sql "t_id"), .word (sql "IN"), .lparen], .between) := rfl
  have hfid := readChars_formatInt fid (readChars_append hand (readChars_ints ids))
  have hall := readChars_append hhead hfid
  have htext : matchQuery fid (joinInts ids) =
      sql "SELECT COUNT(t_id) FROM tag_file WHERE f_id = " ++ (formatInt fid ++
        (sql " AND t_id IN (" ++ (joinInts ids ++ sql ")"))) := by
    simp [matchQuery]
  rw [tokens, htext, hall]
  simp [matchTokens]

theorem integer?_intTokens (i : ℤ) : integer? (intTokens i ++ ts) = some (i, ts) := by
  have hall := all_isDigit_decimal i.natAbs
  have hvalue := decimalValue_decimal i.natAbs
  unfold intTokens
  split_ifs with hi
  · have hneg : -(decimalValue (decimal i.natAbs) : ℤ) = i := by omega
    simp [integer?, hall, hneg]
  · have hpos : (decimalValue (decimal i.natAbs) : ℤ) = i := by omega
    simp [integer?, hall, hpos]

theorem integers?_intsTokens {fuel : ℕ} (i : ℤ) (ids : List ℤ) (hfuel : ids.length < fuel) :
    integers? fuel (intsTokens (i :: ids)) = some (i :: ids, []) := by
  induction ids generalizing i fuel with
  | nil =>
    obtain ⟨fuel, rfl⟩ := Nat.exists_eq_succ_of_ne_zero (Nat.ne_of_gt hfuel)
    have hone : intsTokens [i] = intTokens i ++ [.rparen] := by simp [intsTokens]
    rw [hone, integers?, integer?_intTokens]
    rfl
  | cons j ids ih =>
    obtain ⟨fuel, rfl⟩ := Nat.exists_eq_succ_of_ne_zero (Nat.ne_zero_of_lt hfuel)
    have hcons : intsTokens (i :: j :: ids) = intTokens i ++ .comma :: intsTokens (j :: ids) := by
      simp [intsTokens]
    have hrest : integers? fuel (intsTokens (j :: ids)) = some (j :: ids, []) :=
      ih j (Nat.lt_of_succ_lt_succ hfuel)
    rw [hcons, integers?, integer?_intTokens]
    show (integers? fuel (intsTokens (j :: ids))).map _ = _
    rw [hrest]
    rfl

theorem length_le_intsTokens (ids : List ℤ) : ids.length < (intsTokens ids).length := by
  cases ids with
  | nil => exact Nat.zero_lt_one
  | cons i ids =>
    have hle (l : List ℤ) : l.length ≤ (l.flatMap fun j => .comma :: intTokens j).length := by
      induction l with
      | nil => exact Nat.le_refl 0
      | cons j l ih =>
        rw [List.flatMap_cons, List.length_append, List.length_cons, List.length_cons]
        omega
    have hone : 0 < (intTokens i).length := by simp [intTokens]
    have htail := hle ids
    simp only [intsTokens, List.length_append, List.length_cons, List.length_nil]
    omega

/-- The rows that are counted. -/
def pairQuery (fid : ℤ) (ids : List ℤ) : Query CStr Value :=
  .select false (sql "t_id") (.whereIn (.whereIn (.table (sql "tag_file")) (sql "f_id") false
    [.integer fid]) (sql "t_id") false (ids.map .integer))

theorem condition?_eq (q : Query CStr Value) (column : CStr) (i : ℤ) :
    condition? q (.word column :: .other equalsSign :: (intTokens i ++ ts)) =
      some (.whereIn q column false [.integer i], ts) := by
  show (integer? (intTokens i ++ ts)).map _ = _
  rw [integer?_intTokens]
  rfl

theorem condition?_in (q : Query CStr Value) (column : CStr) (ids : List ℤ) :
    condition? q (.word column :: .word (sql "IN") :: .lparen :: intsTokens ids) =
      some (.whereIn q column false (ids.map .integer), []) := by
  cases ids with
  | nil => rfl
  | cons i ids =>
    have hints := integers?_intsTokens i ids
      ((Nat.lt_succ_self _).trans (length_le_intsTokens (i :: ids)))
    -- the list does not start with the parenthesis that closes it
    have hshape : (∃ c ts, intsTokens (i :: ids) = .other c :: ts) ∨
        ∃ w ts, intsTokens (i :: ids) = .word w :: ts := by
      dsimp only [intsTokens, intTokens]
      split_ifs
      · exact .inl ⟨_, _, rfl⟩
      · exact .inr ⟨_, _, rfl⟩
    obtain ⟨c, ts, h⟩ | ⟨w, ts, h⟩ := hshape
    · rw [h] at hints ⊢
      show (integers? (Token.other c :: ts).length (.other c :: ts)).map _ = _
      rw [hints]
      rfl
    · rw [h] at hints ⊢
      show (integers? (Token.word w :: ts).length (.word w :: ts)).map _ = _
      rw [hints]
      rfl

theorem countQuery?_matchTokens (fid : ℤ) (ids : List ℤ) :
    countQuery? (matchTokens fid ids) = some (pairQuery fid ids) := by
  have hshape : matchTokens fid ids = .word (sql "SELECT") :: .word (sql "COUNT") :: .lparen ::
      .word (sql "t_id") :: .rparen :: .word (sql "FROM") :: .word (sql "tag_file") ::
      .word (sql "WHERE") :: .word (sql "f_id") :: .other equalsSign :: (intTokens fid ++
        .word (sql "AND") :: .word (sql "t_id") :: .word (sql "IN") :: .lparen :: intsTokens ids) := by
    simp [matchTokens]
  have hparse (ts : List Token) : countQuery? (.word (sql "SELECT") :: .word (sql "COUNT") ::
      .lparen :: .word (sql "t_id") :: .rparen :: .word (sql "FROM") :: .word (sql "tag_file") ::
      .word (sql "WHERE") :: ts) =
        (condition? (.table (sql "tag_file")) ts).bind fun r => (keyword? "AND" r.2).bind fun ts =>
          (condition? r.1 ts).bind fun r =>
            if r.2 = [] then some (.select false (sql "t_id") r.1) else none := rfl
  rw [hshape, hparse, condition?_eq]
  show (condition? _ (.word (sql "t_id") :: .word (sql "IN") :: .lparen :: intsTokens ids)).bind _ = _
  rw [condition?_in]
  rfl

theorem length_pairQuery (db : Database) (fid : ℤ) (ids : List ℤ) :
    ((pairQuery fid ids).eval db.rows).length =
      (db.tagFile.filter fun r => r.2 = fid ∧ r.1 ∈ ids).length := by
  have hrows : db.rows (sql "tag_file") = db.tagFile.map tagFileRow := rfl
  have hfid (r : ℤ × ℤ) : (tagFileRow r).among (sql "f_id") false [.integer fid] =
      decide (r.2 = fid) := by
    have hvalue : (tagFileRow r).value? (sql "f_id") = some (.integer r.2) := rfl
    simp [Row.among, hvalue]
  have htid (r : ℤ × ℤ) : (tagFileRow r).among (sql "t_id") false (ids.map .integer) =
      decide (r.1 ∈ ids) := by
    have hvalue : (tagFileRow r).value? (sql "t_id") = some (.integer r.1) := rfl
    simp [Row.among, hvalue]
  have hselect (l : List (ℤ × ℤ)) : ((l.map tagFileRow).filterMap fun r =>
      (r.value? (sql "t_id")).map fun v => ([(sql "t_id", v)] : Row CStr Value)) =
        l.map fun r => [(sql "t_id", .integer r.1)] := by
    rw [List.filterMap_map, ← List.filterMap_eq_map]
    rfl
  have hfilter (l : List (ℤ × ℤ)) (p : Row CStr Value → Bool) :
      (l.map tagFileRow).filter p = (l.filter fun r => p (tagFileRow r)).map tagFileRow :=
    List.filter_map
  simp only [pairQuery, Query.eval, hrows, hfilter, hfid, htid, Bool.false_eq_true, if_false, hselect,
    List.length_map, List.filter_filter]
  congr 2
  funext r
  rw [Bool.and_comm, Bool.decide_and]

theorem countText_matchQuery (db : Database) (fid : ℤ) (ids : List ℤ) :
    countText db (matchQuery fid (joinInts ids)) =
      some (decimal (db.tagFile.filter fun r => r.2 = fid ∧ r.1 ∈ ids).length) := by
  rw [countText, tokens_matchQuery]
  show (countQuery? (matchTokens fid ids)).bind _ = _
  rw [countQuery?_matchTokens]
  exact congrArg (fun n => some (decimal n)) (length_pairQuery db fid ids)

/-- What `dbFileMatchTags` leaves out of `db_file_match_tags` makes no difference. -/
theorem dbFileMatchTagsQuery_eq (s : Store) (fid : ℤ) (sel : HashTable (Option TagId)) :
    dbFileMatchTagsQuery s fid sel = dbFileMatchTags s fid sel := by
  rw [dbFileMatchTagsQuery, dbFileMatchTags, tagIdListString_eq]
  cases tagIdList s sel with
  | error x => rfl
  | ok ids =>
    show (match countText s.db (matchQuery fid (joinInts ids)) with
      | none => (.ok false : Except Fault Bool)
      | some count => .ok (if atoi count ≠ sel.size then false else true)) = .ok (if _ then _ else _)
    rw [countText_matchQuery]
    dsimp only
    rw [atoi_decimal]
    simp

/-- A call of `db_tag_file` or `db_untag_file`. -/
inductive PairCall
  | tag (tid fid : ℤ)
  | untag (tid fid : ℤ)
  deriving DecidableEq

def pairStep (db : Database) : PairCall → Except Fault Database
  | .tag tid fid => .ok (dbTagFile db tid fid).2
  | .untag tid fid => .ok (dbUntagFile db tid fid).2

theorem nodup_pairStep {e : PairCall} (h : db.tagFile.Nodup) (hs : pairStep db e = .ok db') :
    db'.tagFile.Nodup := by
  cases e with
  | tag tid fid =>
    obtain rfl : (dbTagFile db tid fid).2 = db' := Except.ok.inj hs
    unfold dbTagFile
    split_ifs with hmem
    · -- the pair is there already
      exact h
    · exact h.append (List.nodup_singleton _) (List.disjoint_singleton.mpr hmem)
  | untag tid fid =>
    obtain rfl : (dbUntagFile db tid fid).2 = db' := Except.ok.inj hs
    exact h.filter _

theorem nodup_of_reaches (hempty : db₀.tagFile = [])
    (run : Reaches pairStep (fun _ _ => True) db₀ db) : db.tagFile.Nodup :=
  run.invariant (I := fun db => db.tagFile.Nodup) (by rw [hempty]; exact List.nodup_nil)
    fun _ _ _ h _ hs => nodup_pairStep h hs

theorem count_eq_length_iff (hrows : rows.Nodup) (hids : ids.Nodup) :
    (rows.filter fun r => r.2 = fid ∧ r.1 ∈ ids).length = ids.length ↔ ∀ i ∈ ids, (i, fid) ∈ rows := by
  have hmem (i : ℤ) : i ∈ (rows.filter fun r => r.2 = fid ∧ r.1 ∈ ids).map Prod.fst ↔
      (i, fid) ∈ rows ∧ i ∈ ids := by
    simp only [List.mem_map, List.mem_filter, decide_eq_true_eq]
    constructor
    · rintro ⟨⟨j, f⟩, ⟨hr, rfl, hj⟩, rfl⟩
      exact ⟨hr, hj⟩
    · rintro ⟨hr, hi⟩
      exact ⟨(i, fid), ⟨hr, rfl, hi⟩, rfl⟩
  -- pairs with the same file differ in the tag
  have hnodup : ((rows.filter fun r => r.2 = fid ∧ r.1 ∈ ids).map Prod.fst).Nodup := by
    refine (hrows.filter _).map_on ?_
    rintro ⟨i, f⟩ hr ⟨j, g⟩ hr' rfl
    obtain ⟨rfl, -⟩ : f = fid ∧ i ∈ ids := by simpa using List.of_mem_filter hr
    obtain ⟨rfl, -⟩ : g = f ∧ i ∈ ids := by simpa using List.of_mem_filter hr'
    rfl
  have hsub := hnodup.subperm fun i hi => ((hmem i).mp hi).2
  rw [← List.length_map (f := Prod.fst)]
  constructor
  · intro hlen i hi
    -- the tags counted are among the identifiers, and as many
    have hperm := hsub.perm_of_length_le hlen.ge
    exact ((hmem i).mp (hperm.mem_iff.mpr hi)).1
  · intro hall
    have hsub' := hids.subperm fun i hi => (hmem i).mpr ⟨hall i hi, hi⟩
    exact Nat.le_antisymm hsub.length_le hsub'.length_le

/-- `Ts` are the tags in the table of a path. -/
def Selects (s : Store) (sel : HashTable (Option TagId)) (Ts : List Tag) : Prop :=
  List.Forall₂ (fun e T => s.readTag e.2 = .ok T) sel.entries Ts

theorem tagIdList_of_selects (h : Selects s sel Ts) : tagIdList s sel = .ok (Ts.map Tag.id) := by
  have hloop {l : List (CStr × Option TagId)} {Ts : List Tag} (ids : List ℤ)
      (h : List.Forall₂ (fun e T => s.readTag e.2 = .ok T) l Ts) :
      forEach l (fun ids e => do
        let T ← s.readTag e.2
        .ok (ids ++ [T.id])) ids = .ok (ids ++ Ts.map Tag.id) := by
    induction h generalizing ids with
    | nil => simp
    | @cons e T l Ts hT _ ih =>
      have hnext := ih (ids ++ [T.id])
      rw [forEach_cons, hT, ok_bind, ok_bind, hnext]
      simp
  exact hloop [] h

/-- The file `f` of the store `u`, and the tags selected there, stand for the file `fid` and the
tags `Ts`: the tags have the same names, and the file record has those it is paired with. -/
structure SameRelation (db : Database) (fid : ℤ) (Ts : List Tag) (u : Fuse.Store) (f : Fuse.FileId)
    (sel : Fuse.HashTable Fuse.TagId) : Prop where
  file : ∃ F, u.fileHeap.get? f = some F ∧
    ∀ T ∈ Ts, F.tags.contains T.value = true ↔ (T.id, fid) ∈ db.tagFile
  tags : List.Forall₂ (fun e T => ∃ U, u.tagHeap.get? e.2 = some U ∧ U.value = T.value) sel.entries Ts

theorem fileMatchesTags_of_sameRelation {u : Fuse.Store} {f : Fuse.FileId}
    {usel : Fuse.HashTable Fuse.TagId} (h : SameRelation db fid Ts u f usel) :
    Fuse.fileMatchesTags u f usel = .ok (decide (∀ T ∈ Ts, (T.id, fid) ∈ db.tagFile)) := by
  obtain ⟨⟨F, hF, hcarries⟩, htags⟩ := h
  have hloop {l : List (CStr × Fuse.TagId)} {Us : List Tag} (b : Bool)
      (htags : List.Forall₂ (fun e T => ∃ U, u.tagHeap.get? e.2 = some U ∧ U.value = T.value) l Us)
      (hin : ∀ T ∈ Us, T ∈ Ts) :
      forEach l (fun isMatch e => do
        let T ← u.readTag e.2
        .ok (if F.tags.contains T.value = true then isMatch else false)) b =
          .ok (b && decide (∀ T ∈ Us, (T.id, fid) ∈ db.tagFile)) := by
    induction htags generalizing b with
    | nil => simp
    | @cons e T l Us hT _ ih =>
      obtain ⟨U, hU, hvalue⟩ := hT
      have hpair := hcarries T (hin T List.mem_cons_self)
      have hnext := fun b => ih b fun T' hT' => hin T' (List.mem_cons_of_mem T hT')
      rw [forEach_cons, Fuse.Store.readTag_eq hU, ok_bind, ok_bind, hnext, hvalue]
      by_cases hmem : (T.id, fid) ∈ db.tagFile
      · simp [hpair.mpr hmem, hmem]
      · simp [mt hpair.mp hmem, hmem]
  rw [Fuse.fileMatchesTags, Fuse.Store.readFile_eq hF, ok_bind, hloop true htags fun _ hT => hT]
  rfl

/-- For identifiers that are pairwise different, counting the pairs gives what testing every
selected tag gives, in `tag_file` and in the records of `fuse/`. -/
theorem dbFileMatchTags_iff (run : Reaches pairStep (fun _ _ => True) db₀ s.db)
    (hempty : db₀.tagFile = []) (hsel : Selects s sel Ts) (hids : (Ts.map Tag.id).Nodup) (fid : ℤ) :
    ∃ b, dbFileMatchTagsQuery s fid sel = .ok b ∧
      (b = true ↔ ∀ T ∈ Ts, (T.id, fid) ∈ s.db.tagFile) ∧
      ∀ u f usel, SameRelation s.db fid Ts u f usel → Fuse.fileMatchesTags u f usel = .ok b := by
  have hnodup := nodup_of_reaches hempty run
  have hcount := @count_eq_length_iff _ fid _ hnodup hids
  have hsize : sel.size = (Ts.map Tag.id).length := by
    rw [List.length_map]
    exact hsel.length_eq
  have hresult : dbFileMatchTags s fid sel =
      .ok (decide (∀ T ∈ Ts, (T.id, fid) ∈ s.db.tagFile)) := by
    rw [dbFileMatchTags, tagIdList_of_selects hsel, ok_bind, hsize]
    simp only [hcount, List.forall_mem_map, Bool.if_false_right, Bool.and_true]
  refine ⟨_, (dbFileMatchTagsQuery_eq s fid sel).trans hresult, decide_eq_true_iff, ?_⟩
  intro u f usel h
  exact fileMatchesTags_of_sameRelation h

/-- Two tags that the file 1 has; one pair has been entered twice, another deleted. -/
def pairedStore : Store := { Store.init with
  tagHeap := ⟨[some ⟨0, nameX⟩, some ⟨2, nameY⟩]⟩
  db := ⟨[], [], [(0, 1), (2, 1)]⟩ }

/-- The same file and tags in the records of `fuse/`. -/
def pairedRecords : Fuse.Store := { Fuse.Store.init with
  tagHeap := ⟨[some ⟨nameX, ⟨[(nameF, 0)]⟩, true, 0⟩, some ⟨nameY, ⟨[(nameF, 0)]⟩, true, 0⟩]⟩
  fileHeap := ⟨[some ⟨nameF, ⟨[(nameX, 0), (nameY, 1)]⟩, .empty, 0⟩]⟩ }

theorem dbFileMatchTags_iff_sample :
    dbFileMatchTagsQuery pairedStore 1 ⟨[(nameX, some 0), (nameY, some 1)]⟩ = .ok true ∧
      dbFileMatchTagsQuery pairedStore 0 ⟨[(nameX, some 0), (nameY, some 1)]⟩ = .ok false ∧
      Fuse.fileMatchesTags pairedRecords 0 ⟨[(nameX, 0), (nameY, 1)]⟩ = .ok true := by
  have hrun : execute pairStep (fun _ _ => True)
      [.tag 0 1, .tag 0 0, .tag 0 1, .tag 2 1, .untag 0 0] ⟨[], [], []⟩ = some pairedStore.db := by
    decide
  have hsel : Selects pairedStore ⟨[(nameX, some 0), (nameY, some 1)]⟩ [⟨0, nameX⟩, ⟨2, nameY⟩] :=
    .cons rfl (.cons rfl .nil)
  have hsame : SameRelation pairedStore.db 1 [⟨0, nameX⟩, ⟨2, nameY⟩] pairedRecords 0
      ⟨[(nameX, 0), (nameY, 1)]⟩ :=
    ⟨⟨_, rfl, by decide⟩, .cons ⟨_, rfl, rfl⟩ (.cons ⟨_, rfl, rfl⟩ .nil)⟩
  have hiff := dbFileMatchTags_iff (reaches_of_execute hrun) rfl hsel (by decide)
  obtain ⟨b, hb, hpairs, hfuse⟩ := hiff 1
  obtain ⟨b₀, hb₀, hpairs₀, -⟩ := hiff 0
  have htrue : b = true := hpairs.mpr (by decide)
  have hfalse : b₀ = false := Bool.eq_false_iff.mpr (mt hpairs₀.mp (by decide))
  exact ⟨htrue ▸ hb, hfalse ▸ hb₀, htrue ▸ hfuse _ _ _ hsame⟩

end TagFilesystem.FuseSqlite3
