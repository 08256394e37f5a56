import Jhlava.JobIndex

/-! What is found through the index of job ids. The rows are read back as they were written, but
both bounds of a row are one number, and the last row is not read: a file is found where the bound
of its row is asked for and another row follows. -/
namespace Jhlava.JobIndex
open CValues CFormat TextScan List

/-! ### The list of a row -/

section Lists

variable {value : Int32} {list : List Int32}

theorem mem_insertSortIntList {v : Int32} :
    v ∈ insertSortIntList value list ↔ v = value ∨ v ∈ list := by
  induction list with
  | nil => simp [insertSortIntList]
  | cons head list ih =>
    rw [insertSortIntList]
    split
    · rename_i same
      subst same
      simp
    · split
      · simp
      · simp only [mem_cons, ih]
        exact or_left_comm

theorem insertSortIntList_sorted (sorted : list.Pairwise (· > ·)) :
    (insertSortIntList value list).Pairwise (· > ·) := by
  induction list with
  | nil => exact pairwise_singleton _ _
  | cons head list ih =>
    obtain ⟨before, rest⟩ := pairwise_cons.mp sorted
    rw [insertSortIntList]
    split
    · exact sorted
    · rename_i other
      split
      · rename_i less
        refine pairwise_cons.mpr ⟨forall_mem_cons.mpr ⟨less, ?_⟩, sorted⟩
        exact fun v mem => Int32.lt_trans (before v mem) less
      · rename_i le
        refine pairwise_cons.mpr ⟨fun v mem => ?_, ih rest⟩
        rcases mem_insertSortIntList.mp mem with rfl | mem
        · exact Int32.lt_of_le_of_ne (Int32.not_lt.mp le) (Ne.symm other)
        · exact before v mem

theorem length_insertSortIntList : (insertSortIntList value list).length ≤ list.length + 1 := by
  induction list with
  | nil => exact Nat.le_refl 1
  | cons head list ih =>
    rw [insertSortIntList]
    split
    · exact Nat.le_succ _
    · split
      · exact Nat.le_refl _
      · exact Nat.succ_le_succ ih

theorem jobIdList_spec (e : EventFile) :
    (jobIdList e).Pairwise (· > ·) ∧ (∀ v, v ∈ jobIdList e ↔ v ∈ e.jobIds) ∧
      (jobIdList e).length ≤ e.jobIds.length := by
  have run : ∀ (ids list : List Int32), list.Pairwise (· > ·) →
      (ids.foldl (fun list jobId => insertSortIntList jobId list) list).Pairwise (· > ·) ∧
        (∀ v, v ∈ ids.foldl (fun list jobId => insertSortIntList jobId list) list ↔
          v ∈ ids ∨ v ∈ list) ∧
        (ids.foldl (fun list jobId => insertSortIntList jobId list) list).length ≤
          ids.length + list.length := by
    intro ids
    induction ids with
    | nil => exact fun list sorted => ⟨sorted, by simp, by simp⟩
    | cons id ids ih =>
      intro list sorted
      obtain ⟨pairs, mem, length⟩ := ih _ (@insertSortIntList_sorted id list sorted)
      refine ⟨pairs, fun v => ?_, ?_⟩
      · rw [foldl_cons, mem, mem_insertSortIntList, mem_cons]
        tauto
      · have one := @length_insertSortIntList id list
        rw [foldl_cons, length_cons]
        omega
  obtain ⟨pairs, mem, length⟩ := run e.jobIds [] List.Pairwise.nil
  refine ⟨pairs, fun v => (mem v).trans (by simp), length⟩

theorem searchIds_iff {jobId : Int32} (sorted : list.Pairwise (· > ·)) :
    searchIds jobId list = true ↔ jobId ∈ list := by
  induction list with
  | nil => simp [searchIds]
  | cons id list ih =>
    obtain ⟨before, rest⟩ := pairwise_cons.mp sorted
    rw [searchIds, mem_cons]
    split
    · rename_i same
      simp [same]
    · rename_i other
      split
      · rename_i less
        refine iff_of_false Bool.false_ne_true ?_
        rintro (same | mem)
        · exact other same
        · exact Int32.lt_irrefl (Int32.lt_trans (before jobId mem) less)
      · simp [other, ih rest]

end Lists

/-! ### Reading what was written -/

section Text

variable {more : Text}

theorem scanL_printD (n : Int32) {pad t : Text} (blanks : ∀ c ∈ pad, c = ' ')
    (stop : ∀ c ∈ t.head?, c.isDigit = false) :
    scanL (pad ++ (printD n.toInt ++ t)) = some (n.toInt, t) := by
  have lo := n.le_toInt
  have hi := n.toInt_lt
  unfold scanL
  rw [strtol_printD n.toInt blanks stop (by omega) (by omega)]
  simp only [if_neg (ne_printD_append n.toInt pad t)]

def idTail (list : List Int32) : Text := list.flatMap fun id => ' ' :: printD id.toInt

theorem idTail_stop (list : List Int32) {t : Text} (stop : ∀ c ∈ t.head?, c.isDigit = false) :
    ∀ c ∈ (idTail list ++ t).head?, c.isDigit = false := by
  cases list with
  | nil => exact stop
  | cons id list =>
    rintro c ⟨⟩
    rfl

theorem scanIds_tail (list : List Int32) {t : Text} (stop : ∀ c ∈ t.head?, c.isDigit = false) :
    scanIds list.length (idTail list ++ t) = some (list, t) := by
  induction list with
  | nil => rfl
  | cons id list ih =>
    have read := @scanD_printD_stop id [' '] _ (by simp) (idTail_stop list stop)
    rw [singleton_append] at read
    rw [idTail, flatMap_cons, length_cons, append_assoc]
    change (scanD (' ' :: (printD id.toInt ++ (idTail list ++ t)))).bind _ = _
    rw [read]
    simp only [Option.bind_eq_bind, Option.bind_some, ih]
    rfl

theorem lineFeed_stop : ∀ c ∈ ('\n' :: more).head?, c.isDigit = false := by
  rintro c ⟨⟩
  rfl

theorem scanIds_line (id : Int32) (list : List Int32) :
    scanIds (list.length + 1) (printD id.toInt ++ (idTail list ++ '\n' :: more)) =
      some (id :: list, '\n' :: more) := by
  have read := @scanD_printD_stop id [] _ (by simp) (idTail_stop list (@lineFeed_stop more))
  rw [nil_append] at read
  rw [scanIds, read]
  simp only [Option.bind_eq_bind, Option.bind_some, scanIds_tail list lineFeed_stop]
  rfl

theorem idLines_short {col : Nat} (list : List Int32) (some_ : col ≠ 0)
    (short : col + list.length < 10) : idLines col list = idTail list ++ ['\n'] := by
  induction list generalizing col with
  | nil => rw [idLines, if_neg some_]; rfl
  | cons id list ih =>
    rw [length_cons] at short
    rw [idLines, if_neg some_, if_neg (by omega), ih (Nat.succ_ne_zero col) (by omega), idTail,
      idTail, flatMap_cons, append_assoc]

theorem idLines_full {col : Nat} (list rest : List Int32) (some_ : col ≠ 0) (ids : list ≠ [])
    (full : col + list.length = 10) :
    idLines col (list ++ rest) = idTail list ++ '\n' :: idLines 0 rest := by
  induction list generalizing col with
  | nil => exact absurd rfl ids
  | cons id list ih =>
    rw [length_cons] at full
    rw [cons_append, idLines, if_neg some_, idTail, flatMap_cons, append_assoc]
    cases list with
    | nil => rw [if_pos (by simpa using full)]; rfl
    | cons id' list =>
      rw [length_cons] at full
      rw [if_neg (by omega), ih (Nat.succ_ne_zero col) (by simp) (by simp; omega)]
      rfl

theorem dropWhile_lineFeed (first : ∀ c ∈ more.head?, isspace c = false) :
    ('\n' :: more).dropWhile isspace = more := by
  rw [dropWhile_cons_of_pos (by decide)]
  cases more with
  | nil => rfl
  | cons c more => rw [dropWhile_cons_of_neg (by rw [first c rfl]; decide)]

theorem printD_head (n : ℤ) (t : Text) : ∀ c ∈ (printD n ++ t).head?, isspace c = false := by
  obtain ⟨d, ds, shape, -, -, space, -⟩ := printD_shape n
  rw [shape]
  split
  · rintro c ⟨⟩
    decide
  · rintro c ⟨⟩
    exact space

theorem readIds_few {n : Nat} (few : n < 10) (some_ : n ≠ 0) (fp : Text) :
    readIds n fp = (scanIds n fp).bind fun r => some (r.1, r.2.dropWhile isspace) := by
  unfold readIds
  split
  · omega
  · rw [if_neg some_]
    rfl

theorem readIds_ten (n : Nat) (fp : Text) :
    readIds (n + 10) fp = (scanIds 10 fp).bind fun r =>
      (readIds n (r.2.dropWhile isspace)).bind fun r' => some (r.1 ++ r'.1, r'.2) := by
  rfl

theorem readIds_idLines (list : List Int32) (first : ∀ c ∈ more.head?, isspace c = false) :
    readIds list.length (idLines 0 list ++ more) = some (list, more) := by
  induction length : list.length using Nat.strongRecOn generalizing list with
  | ind n ih =>
    subst length
    cases list with
    | nil => rfl
    | cons id tail =>
      by_cases few : (id :: tail).length < 10
      · rw [length_cons] at few
        have line : idLines 0 (id :: tail) ++ more =
            printD id.toInt ++ (idTail tail ++ '\n' :: more) := by
          rw [idLines, if_pos rfl, if_neg (by decide), idLines_short tail (by decide) (by omega)]
          simp
        rw [line, length_cons, readIds_few few (by omega), scanIds_line, Option.bind_some,
          dropWhile_lineFeed first]
      · obtain ⟨nine, rest, rfl, nines⟩ :
            ∃ nine rest, tail = nine ++ rest ∧ nine.length = 9 := by
          rw [length_cons] at few
          exact ⟨tail.take 9, tail.drop 9, (take_append_drop 9 tail).symm, by simp; omega⟩
        have line : idLines 0 (id :: (nine ++ rest)) ++ more =
            printD id.toInt ++ (idTail nine ++ '\n' :: (idLines 0 rest ++ more)) := by
          rw [idLines, if_pos rfl, if_neg (by decide),
            idLines_full nine rest (by decide) (by rintro rfl; cases nines) (by omega)]
          simp
        have next : ∀ c ∈ (idLines 0 rest ++ more).head?, isspace c = false := by
          cases rest with
          | nil => exact first
          | cons id rest =>
            rw [idLines, append_assoc]
            exact printD_head _ _
        have ten := @scanIds_line (idLines 0 rest ++ more) id nine
        rw [nines] at ten
        have count : (id :: (nine ++ rest)).length = rest.length + 10 := by
          simp [nines]
          omega
        rw [line, count, readIds_ten, ten, Option.bind_some, dropWhile_lineFeed next,
          ih rest.length (by omega) rest rfl]
        rfl

theorem toInt_ofNat_few {n : Nat} (few : n < 2 ^ 29) : (Int32.ofNat n).toInt = n :=
  Int32.toInt_ofNat_of_lt (by omega)

theorem toInt_length (e : EventFile) :
    (Int32.ofNat (jobIdList e).length).toInt = (jobIdList e).length :=
  toInt_ofNat_few ((jobIdList_spec e).2.2.trans_lt e.few)

theorem blank_stop (t : Text) : ∀ c ∈ (' ' :: t).head?, c.isDigit = false := by
  rintro c ⟨⟩
  rfl

theorem scanHead_text (time total least most : Int32)
    (first : ∀ c ∈ more.head?, isspace c = false) :
    scanHead ('#' :: (printD time.toInt ++ (' ' :: (printD total.toInt ++
      (' ' :: (printD least.toInt ++ (' ' :: (printD most.toInt ++ '\n' :: more)))))))) =
      some (⟨time.toInt, total, least.toInt, most.toInt⟩, more) := by
  have readMost := @scanL_printD most [' '] _ (by simp) (@lineFeed_stop more)
  have readLeast := @scanL_printD least [' '] _ (by simp)
    (blank_stop (printD most.toInt ++ '\n' :: more))
  have readTotal := @scanD_printD_stop total [' '] _ (by simp)
    (blank_stop (printD least.toInt ++ (' ' :: (printD most.toInt ++ '\n' :: more))))
  have readTime := @scanL_printD time [] _ (by simp) (blank_stop (printD total.toInt ++
    (' ' :: (printD least.toInt ++ (' ' :: (printD most.toInt ++ '\n' :: more))))))
  rw [nil_append] at readTime
  rw [singleton_append] at readTotal readLeast readMost
  rw [scanHead, readTime]
  simp only [Option.bind_eq_bind, Option.bind_some, readTotal, readLeast, readMost,
    dropWhile_lineFeed first]
  rfl

theorem scanHead_row (order : ArgOrder) (e : EventFile)
    (first : ∀ c ∈ (idLines 0 (jobIdList e) ++ more).head?, isspace c = false) :
    scanHead (writeJobIdIndexToIndexFile order e ++ more) =
      some (⟨e.timeStamp.toInt, Int32.ofNat (jobIdList e).length,
        (boundsText order (jobIdList e)).toInt, (boundsText order (jobIdList e)).toInt⟩,
        idLines 0 (jobIdList e) ++ more) := by
  rw [← scanHead_text _ _ _ _ first, toInt_length]
  simp [writeJobIdIndexToIndexFile]

end Text

/-! ### The rows of an index -/

section Rows

variable {order : ArgOrder} {jobIds : List Int64}

/-- The rows `es`, the oldest file first. -/
def rowsText (order : ArgOrder) (es : List EventFile) : Text :=
  es.flatMap (writeJobIdIndexToIndexFile order)

def indexedAfter (first : List EventFile) (later : List (List EventFile)) : List EventFile :=
  later.foldl
    (fun rows files =>
      if files.length = rows.length + 1 then rows ++ files.take 1 else files.reverse)
    first.reverse

theorem indexAfter_rows (order : ArgOrder) (first : List EventFile)
    (later : List (List EventFile)) :
    indexAfter order first later =
      ⟨(indexedAfter first later).length, rowsText order (indexedAfter first later)⟩ := by
  have run : ∀ (later : List (List EventFile)) (rows : List EventFile),
      later.foldl (fun index files => updateJobIdIndexFile order (some index) files)
          ⟨rows.length, rowsText order rows⟩ =
        ⟨(later.foldl (fun rows files => if files.length = rows.length + 1 then
            rows ++ files.take 1 else files.reverse) rows).length,
          rowsText order (later.foldl (fun rows files => if files.length = rows.length + 1 then
            rows ++ files.take 1 else files.reverse) rows)⟩ := by
    intro later
    induction later with
    | nil => exact fun rows => rfl
    | cons files later ih =>
      intro rows
      have step : updateJobIdIndexFile order (some ⟨rows.length, rowsText order rows⟩) files =
          ⟨(if files.length = rows.length + 1 then rows ++ files.take 1
              else files.reverse).length,
            rowsText order (if files.length = rows.length + 1 then rows ++ files.take 1
              else files.reverse)⟩ := by
        unfold updateJobIdIndexFile
        dsimp only
        split
        · have single : (files.take 1).length = 1 := by simp; omega
          have reversed : (files.take 1).reverse = files.take 1 := by
            obtain ⟨e, eq⟩ := length_eq_one_iff.mp single
            rw [eq, reverse_singleton]
          rw [length_append, single, writeRows, reversed, rowsText, rowsText, flatMap_append]
        · rw [length_reverse, writeRows, rowsText]
      rw [foldl_cons, step, ih]
      rfl
  have start : updateJobIdIndexFile order none first =
      ⟨first.reverse.length, rowsText order first.reverse⟩ := by
    rw [length_reverse]
    rfl
  rw [indexAfter, start]
  exact run later first.reverse

def Lists (e : EventFile) (jobIds : List Int64) : Prop :=
  ∃ jobId ∈ jobIds, lsbArrayJobid jobId ∈ e.jobIds

instance (e : EventFile) (jobIds : List Int64) : Decidable (Lists e jobIds) :=
  inferInstanceAs (Decidable (∃ jobId ∈ jobIds, lsbArrayJobid jobId ∈ e.jobIds))

def AsksBound (order : ArgOrder) (e : EventFile) (jobIds : List Int64) : Prop :=
  boundsText order (jobIdList e) ∈ jobIds.map lsbArrayJobid

instance (order : ArgOrder) (e : EventFile) (jobIds : List Int64) :
    Decidable (AsksBound order e jobIds) :=
  inferInstanceAs (Decidable (boundsText order (jobIdList e) ∈ jobIds.map lsbArrayJobid))

theorem boundsText_mem (order : ArgOrder) {list : List Int32} (some_ : list ≠ []) :
    boundsText order list ∈ list := by
  cases order with
  | leftToRight =>
    rw [boundsText, getMaxSortIntList, List.head?_eq_some_head some_]
    exact head_mem some_
  | rightToLeft =>
    rw [boundsText, getMinSortIntList, List.getLast?_eq_some_getLast some_]
    exact getLast_mem some_

theorem jobIdList_eq_nil {e : EventFile} : jobIdList e = [] ↔ e.jobIds = [] := by
  simp only [eq_nil_iff_forall_not_mem, (jobIdList_spec e).2.1]

theorem rowHas_iff (time : Int) (total : Int32) (e : EventFile) (some_ : jobIdList e ≠ []) :
    rowHas ⟨time, total, (boundsText order (jobIdList e)).toInt,
      (boundsText order (jobIdList e)).toInt⟩ (jobIdList e) jobIds = true ↔
      AsksBound order e jobIds := by
  have mem := boundsText_mem order some_
  generalize bound : boundsText order (jobIdList e) = b at mem
  rw [rowHas, any_eq_true, AsksBound, bound, mem_map]
  refine exists_congr fun jobId => and_congr_right fun _ => ?_
  dsimp only
  split
  · refine iff_of_false Bool.false_ne_true ?_
    rintro rfl
    omega
  · have same : lsbArrayJobid jobId = b := Int32.toInt_inj.mp (by omega)
    rw [same, searchIds_iff (jobIdList_spec e).1]
    exact iff_of_true mem rfl

/-- The answer of a call at the row `k`, with the rows `es` left. -/
def nextOf (order : ArgOrder) (jobIds : List Int64) (n : Int) :
    Int → List EventFile → NextFile × IndexS
  | k, [] => (.failed, ⟨[], n, k + 1⟩)
  | k, [e] => (.finished, ⟨rowsText order [e], n, k + 1⟩)
  | k, e :: e' :: es =>
    if e.jobIds ≠ [] ∧ AsksBound order e jobIds then
      (.file (n - k), ⟨rowsText order (e' :: es), n, k + 1⟩)
    else nextOf order jobIds n (k + 1) (e' :: es)

theorem rowsText_cons (e : EventFile) (es : List EventFile) :
    rowsText order (e :: es) = writeJobIdIndexToIndexFile order e ++ rowsText order es := rfl

theorem rowsText_first (e : EventFile) (es : List EventFile) :
    ∀ c ∈ (rowsText order (e :: es)).head?, isspace c = false := by
  rintro c ⟨⟩
  rfl

variable {es : List EventFile} {k n : Int}

theorem getNextFileNum_rows {rounds : Nat} (count : n = k + es.length)
    (enough : es.length < rounds) :
    getNextFileNumFromIndexS jobIds rounds ⟨rowsText order es, n, k⟩ =
      nextOf order jobIds n k es := by
  induction rounds generalizing k es with
  | zero => exact absurd enough (Nat.not_lt_zero _)
  | succ rounds ih =>
    rw [getNextFileNumFromIndexS]
    dsimp only
    cases es with
    | nil =>
      rw [length_nil] at count
      rw [if_neg (by omega)]
      rfl
    | cons e es =>
      cases es with
      | nil =>
        rw [if_pos (by simp at count; omega)]
        rfl
      | cons e' es =>
        have first := @rowsText_first order e' es
        have next : ∀ c ∈ (idLines 0 (jobIdList e) ++ rowsText order (e' :: es)).head?,
            isspace c = false := by
          cases jobIdList e with
          | nil => exact first
          | cons id list =>
            rw [idLines, append_assoc]
            exact printD_head _ _
        rw [length_cons, length_cons] at count enough
        rw [if_neg (by omega), rowsText_cons, scanHead_row order e next, nextOf]
        dsimp only
        by_cases none_ : jobIdList e = []
        · have empty := jobIdList_eq_nil.mp none_
          rw [none_, if_pos (by rfl), if_neg (by simp [empty])]
          exact ih (by rw [length_cons]; omega) (by rw [length_cons]; omega)
        · have some_ : e.jobIds ≠ [] := fun empty => none_ (jobIdList_eq_nil.mpr empty)
          have total : Int32.ofNat (jobIdList e).length ≠ 0 := by
            intro zero
            have length := toInt_length e
            rw [zero] at length
            exact none_ (length_eq_zero_iff.mp (Int.ofNat_inj.mp length.symm))
          rw [if_neg total, toInt_length, Int.toNat_natCast, readIds_idLines _ first]
          dsimp only
          by_cases asked : AsksBound order e jobIds
          · rw [if_pos ((rowHas_iff _ _ e none_).mpr asked), if_pos ⟨some_, asked⟩]
            congr 2
            omega
          · rw [if_neg (fun has => asked ((rowHas_iff _ _ e none_).mp has)),
              if_neg fun both => asked both.2]
            exact ih (by rw [length_cons]; omega) (by rw [length_cons]; omega)

/-- The numbers of all calls from the row `k` on. -/
def numbersOf (order : ArgOrder) (jobIds : List Int64) (n : Int) : Int → List EventFile → List Int
  | _, [] => []
  | _, [_] => []
  | k, e :: e' :: es =>
    if e.jobIds ≠ [] ∧ AsksBound order e jobIds then
      (n - k) :: numbersOf order jobIds n (k + 1) (e' :: es)
    else numbersOf order jobIds n (k + 1) (e' :: es)

theorem length_rowsText (es : List EventFile) : es.length ≤ (rowsText order es).length := by
  induction es with
  | nil => exact Nat.zero_le _
  | cons e es ih =>
    rw [rowsText_cons, length_append, length_cons, writeJobIdIndexToIndexFile,
      cons_append, length_cons]
    omega

theorem fileNumbers_rows {calls : Nat} (count : n = k + es.length) (enough : es.length < calls) :
    fileNumbers jobIds calls ⟨rowsText order es, n, k⟩ = numbersOf order jobIds n k es := by
  have call : ∀ (k : Int) (es : List EventFile), n = k + es.length →
      getNextFileNumFromIndexS jobIds ((rowsText order es).length + 1) ⟨rowsText order es, n, k⟩ =
        nextOf order jobIds n k es :=
    fun k es count => getNextFileNum_rows count (Nat.lt_succ_of_le (length_rowsText es))
  induction es generalizing k calls with
  | nil =>
    cases calls with
    | zero => rfl
    | succ calls =>
      unfold fileNumbers
      rw [call k [] count]
      rfl
  | cons e es ih =>
    cases calls with
    | zero => exact absurd enough (Nat.not_lt_zero _)
    | succ calls =>
      cases es with
      | nil =>
        unfold fileNumbers
        rw [call k [e] count]
        rfl
      | cons e' es =>
        rw [length_cons] at count enough
        have count' : n = k + 1 + (e' :: es).length := by omega
        rw [numbersOf]
        split
        · rename_i found
          unfold fileNumbers
          rw [call k (e :: e' :: es) (by rw [length_cons]; omega), nextOf, if_pos found]
          dsimp only
          rw [ih count' (by omega)]
        · rename_i absent
          have rest := @ih (k + 1) (calls + 1) count' (by omega)
          unfold fileNumbers at rest ⊢
          rw [call (k + 1) (e' :: es) count'] at rest
          rw [call k (e :: e' :: es) (by rw [length_cons]; omega), nextOf, if_neg absent]
          exact rest

def listedFiles (es : List EventFile) (jobIds : List Int64) : List Int :=
  (es.zipIdx.filter fun r => Lists r.1 jobIds).map fun r => (es.length : Int) - r.2

theorem lists_of_asksBound {e : EventFile} (some_ : e.jobIds ≠ [])
    (asked : AsksBound order e jobIds) : Lists e jobIds := by
  obtain ⟨jobId, mem, eq⟩ := mem_map.mp asked
  have listed := boundsText_mem order (fun none_ => some_ (jobIdList_eq_nil.mp none_))
  exact ⟨jobId, mem, eq ▸ ((jobIdList_spec e).2.1 _).mp listed⟩

theorem numbersOf_le : ∀ m ∈ numbersOf order jobIds n k es, m ≤ n - k := by
  induction es generalizing k with
  | nil => simp [numbersOf]
  | cons e es ih =>
    cases es with
    | nil => simp [numbersOf]
    | cons e' es =>
      have later : ∀ m ∈ numbersOf order jobIds n (k + 1) (e' :: es), m ≤ n - k := by
        intro m mem
        have le := ih m mem
        omega
      rw [numbersOf]
      split
      · exact forall_mem_cons.mpr ⟨Int.le_refl _, later⟩
      · exact later

theorem forall_getElem_cons {P : Nat → EventFile → Prop} (e : EventFile) (es : List EventFile) :
    (∀ i x, (e :: es)[i]? = some x → P i x) ↔ P 0 e ∧ ∀ i x, es[i]? = some x → P (i + 1) x := by
  constructor
  · exact fun all => ⟨all 0 e rfl, fun i x at_ => all (i + 1) x at_⟩
  · rintro ⟨here, later⟩ i x at_
    cases i with
    | zero =>
      cases at_
      exact here
    | succ i => exact later i x at_

theorem numbersOf_eq_iff (n : Int) (k : Nat) (es : List EventFile) :
    numbersOf order jobIds n k es =
        ((es.zipIdx k).filter fun r => Lists r.1 jobIds).map (fun r => n - (r.2 : Int)) ↔
      ∀ i e, es[i]? = some e → Lists e jobIds → i + 1 < es.length ∧ AsksBound order e jobIds := by
  induction es generalizing k with
  | nil => simp [numbersOf]
  | cons e es ih =>
    rw [forall_getElem_cons, zipIdx_cons, filter_cons]
    cases es with
    | nil => by_cases listed : Lists e jobIds <;> simp [numbersOf, listed]
    | cons e' es =>
      have rest := ih (k + 1)
      push_cast at rest
      rw [numbersOf]
      by_cases listed : Lists e jobIds
      · rw [if_pos (decide_eq_true listed), map_cons]
        by_cases asked : AsksBound order e jobIds
        · have some_ : e.jobIds ≠ [] := by
            obtain ⟨jobId, -, mem⟩ := listed
            exact ne_nil_of_mem mem
          rw [if_pos ⟨some_, asked⟩, cons_inj_right, rest]
          simp [listed, asked]
        · rw [if_neg fun both => asked both.2]
          refine iff_of_false ?_ fun all => asked (all.1 listed).2
          intro eq
          have le := numbersOf_le (n - k) (eq ▸ mem_cons_self)
          omega
      · have absent : ¬ (e.jobIds ≠ [] ∧ AsksBound order e jobIds) :=
          fun both => listed (lists_of_asksBound both.1 both.2)
        rw [if_neg absent, if_neg (by simpa using listed), rest]
        simp [listed]

/-- The files that are found are those whose row lists a job, just when no such row is the last and
the number that stands for its bounds is asked for. -/
theorem filesFromIndex_eq_iff (order : ArgOrder) (first : List EventFile)
    (later : List (List EventFile)) (jobIds : List Int64) :
    filesFromIndex (indexAfter order first later) jobIds =
        listedFiles (indexedAfter first later) jobIds ↔
      ∀ k e, (indexedAfter first later)[k]? = some e → Lists e jobIds →
        k + 1 < (indexedAfter first later).length ∧ AsksBound order e jobIds := by
  rw [indexAfter_rows, filesFromIndex, initJobIdIndexS, fileNumbers_rows (by simp)
    (Nat.lt_succ_of_le (length_rowsText _))]
  exact numbersOf_eq_iff _ 0 _

end Rows

def threeFiles : List EventFile :=
  [⟨30, [2], by decide⟩, ⟨20, [2], by decide⟩, ⟨10, [1, 2, 3], by decide⟩]

/-- Only the file 2 is found for the job 2. -/
theorem filesFromIndex_misses :
    filesFromIndex (indexAfter .leftToRight threeFiles []) [2] = [2] ∧
      filesFromIndex (indexAfter .rightToLeft threeFiles []) [2] = [2] ∧
      listedFiles (indexedAfter threeFiles []) [2] = [3, 2, 1] := by
  decide +kernel

end Jhlava.JobIndex
