import Jhlava.ConfRead

/-! The lines of a configuration file against those that are read from it. The last line is the
one that can go wrong: without its newline it is not counted, and a short one is not read. -/
namespace Jhlava.Conf
open CValues TextScan LogWords Items List Option

/-! ### The lines of a file -/

def pieces : Text → List Text × Text
  | [] => ([], [])
  | '\n' :: fp => ([] :: (pieces fp).1, (pieces fp).2)
  | c :: fp =>
    match pieces fp with
    | ([], last) => ([], (if isspace c then ' ' else c) :: last)
    | (line :: lines, last) => (((if isspace c then ' ' else c) :: line) :: lines, last)

def fileLines (file : Text) : List Text :=
  ((pieces file).1 ++ if (pieces file).2 = [] then [] else [(pieces file).2]).map cutBlanks

def LastRead (last : Text) : Prop := last.length = 1 ∨ 1 < (cutBlanks last).length

instance (last : Text) : Decidable (LastRead last) := inferInstanceAs (Decidable (_ ∨ _))

theorem pieces_takeLine (fp : Text) :
    pieces fp =
      match takeLine fp with
      | (line, some rest) => (line :: (pieces rest).1, (pieces rest).2)
      | (line, none) => ([], line) := by
  induction fp using takeLine.induct with
  | case1 => rfl
  | case2 fp => rfl
  | case3 c fp notNewline ih =>
    rw [pieces.eq_3 _ _ notNewline, takeLine.eq_3 _ _ notNewline, ih]
    rcases takeLine fp with ⟨line, rest | rest⟩ <;> rfl

theorem takeLine_newline (fp : Text) : (takeLine fp).2.isSome ↔ '\n' ∈ fp := by
  induction fp using takeLine.induct with
  | case1 => simp [takeLine]
  | case2 fp => simp [takeLine]
  | case3 c fp notNewline ih =>
    rw [takeLine.eq_3 _ _ notNewline, ih, mem_cons]
    exact ⟨.inr, fun h => h.resolve_left fun eq => notNewline eq.symm⟩

theorem readLines_pieces {fuel : Nat} {fp : Text} (enough : lineCount fp < fuel) (n : Nat) :
    readLines fuel n fp =
      numbered (n + 1) ((pieces fp).1.map cutBlanks) ++
        if LastRead (pieces fp).2 then [(n + (pieces fp).1.length, cutBlanks (pieces fp).2)]
          else [] := by
  induction fuel generalizing fp n with
  | zero => exact absurd enough (Nat.not_lt_zero _)
  | succ fuel ih =>
    have newline := takeLine_newline fp
    have shorter := @takeLine_rest fp
    rw [readLines, getNextLineD, pieces_takeLine fp]
    generalize takeLine fp = taken at newline shorter
    obtain ⟨line, _ | rest⟩ := taken
    · have none : '\n' ∉ fp := fun mem => Bool.false_ne_true (newline.2 mem)
      have ends : readLines fuel n [] = [] := by cases fuel <;> rfl
      by_cases read : line.length = 1 ∨ 1 < (cutBlanks line).length
      · have last : LastRead line := read
        simp only [if_pos read, if_neg none, ends, if_pos last]
        rfl
      · have last : ¬ LastRead line := read
        simp only [if_neg read, if_neg last]
        rfl
    · have some : '\n' ∈ fp := newline.1 rfl
      have rest_lt := shorter rfl
      have count : n + 1 + (pieces rest).1.length = n + ((pieces rest).1.length + 1) := by omega
      simp only [if_pos some]
      rw [ih (by omega), map_cons, count]
      rfl

/-! ### Text at the end -/

def Src.snoc (n : Nat) (t : Text) : {p : Part} → Src p → Src p
  | _, .nil => .line n t .nil
  | _, .line m s rest => .line m s (rest.snoc n t)
  | _, .define rest => .define (rest.snoc n t)
  | _, .block c left others rest => .block c left others (rest.snoc n t)
  | _, .noMore => .noMore
  | _, .elifCond c left others => .elifCond c left others
  | _, .elseCond right => .elseCond right

theorem tokens_snoc (n : Nat) (t : Text) :
    (src : Src .body) → (src.snoc n t).tokens = src.tokens ++ [.text n t]
  | .nil => rfl
  | .line m s rest => congrArg (Token.text m s :: ·) (tokens_snoc n t rest)
  | .define rest => congrArg (Token.define :: ·) (tokens_snoc n t rest)
  | .block c left others rest => by
      simp only [Src.snoc, Src.tokens, tokens_snoc n t rest, List.cons_append, List.append_assoc]

theorem kept_snoc (truth : Text → Bool) (n : Nat) (t : Text) :
    (src : Src .body) → (src.snoc n t).kept truth = src.kept truth ++ [(n, t)]
  | .nil => rfl
  | .line m s rest => congrArg ((m, s) :: ·) (kept_snoc truth n t rest)
  | .define rest => kept_snoc truth n t rest
  | .block c left others rest => by
      simp only [Src.snoc, Src.kept, kept_snoc truth n t rest, List.append_assoc]

theorem Src.tokens_eq_nil : (src : Src .body) → src.tokens = [] → src = .nil
  | .nil, _ => rfl

variable {defs : Defs} {k n : Nat} {line t : Text} {next : Option Nat} {ts : List Token}

theorem getLast?_of_cons {u v : Token} (last : (u :: ts).getLast? = some v) :
    ts = [] ∧ u = v ∨ ts.getLast? = some v := by
  cases ts with
  | nil => exact .inl ⟨rfl, Option.some.inj last⟩
  | cons w ts => exact .inr (List.getLast?_cons_cons ▸ last)

theorem exists_snoc :
    (src : Src .body) → src.tokens.getLast? = some (.text n t) → ∃ src', src = Src.snoc n t src'
  | .line m s rest, last => by
      rcases getLast?_of_cons last with ⟨nil, same⟩ | last
      · obtain ⟨rfl, rfl⟩ := Token.text.inj same
        rw [Src.tokens_eq_nil rest nil]
        exact ⟨.nil, rfl⟩
      · obtain ⟨src', rfl⟩ := exists_snoc rest last
        exact ⟨.line m s src', rfl⟩
  | .define rest, last => by
      obtain ⟨src', rfl⟩ := exists_snoc rest ((getLast?_of_cons last).resolve_left (by simp))
      exact ⟨.define src', rfl⟩
  | .block c left others rest, last => by
      rw [Src.tokens, ← cons_append, ← append_assoc, List.getLast?_append_cons] at last
      obtain ⟨src', rfl⟩ := exists_snoc rest ((getLast?_of_cons last).resolve_left (by simp))
      exact ⟨.block c left others src', rfl⟩

/-- Behind text, the number of a line of text is not used. -/
theorem items_snoc_congr {m : Nat} {s : Text} :
    (src : Src .body) → (run : Option (Nat × List Text)) →
      ((src.snoc k s).snoc n t).items run = ((src.snoc k s).snoc m t).items run
  | .nil, run => by cases run <;> rfl
  | .line _ _ rest, _ => items_snoc_congr rest _
  | .define rest, run => congrArg (withRun run) (items_snoc_congr rest none)
  | .block c _ _ rest, run =>
    congrArg (fun items => withRun run (.cond c .allDone _ _ items)) (items_snoc_congr rest none)

/-! ### Consecutive numbers -/

def Token.nextNum : Token → Option Nat
  | .text n _ => some (n + 1)
  | _ => none

/-- Lines of text one behind the other have consecutive numbers; `next` is the number that follows
the text before. -/
def Consecutive : Option Nat → List Token → Prop
  | _, [] => True
  | next, t :: ts => (∀ n l, t = .text n l → next = none ∨ next = some n) ∧ Consecutive t.nextNum ts

theorem Consecutive.any (h : Consecutive next ts) : Consecutive none ts := by
  cases ts with
  | nil => trivial
  | cons t ts => exact ⟨fun _ _ _ => .inl rfl, h.2⟩

variable {us : List Token}

theorem consecutive_append :
    Consecutive next (ts ++ us) ↔
      Consecutive next ts ∧ Consecutive (ts.getLast?.elim next Token.nextNum) us := by
  induction ts generalizing next with
  | nil => exact (and_iff_right trivial).symm
  | cons t ts ih =>
    rw [cons_append, Consecutive, Consecutive, ih, and_assoc, List.getLast?_cons]
    cases ts.getLast? <;> rfl

theorem Consecutive.append (h : Consecutive next (ts ++ us)) :
    Consecutive next ts ∧ Consecutive none us :=
  (consecutive_append.1 h).imp_right Consecutive.any

theorem token_of_text (text : directive line = none) (defs : Defs) (n : Nat) :
    token defs (n, line) = some (.text n line, defs) := by
  simp only [token, text]

theorem token_text {s : Text} {defs' : Defs}
    (isToken : token defs (n, line) = some (.text k s, defs')) : directive line = none ∧ n = k := by
  unfold token at isToken
  split at isToken
  · simp_all
  · split at isToken <;> simp at isToken
  all_goals simp at isToken

theorem token_number {d : Directive × Text} (dir : directive line = some d) (defs : Defs)
    (n m : Nat) : token defs (n, line) = token defs (m, line) := by
  obtain ⟨d, linep⟩ := d
  cases d <;> simp only [token, dir]

theorem consecutive_tokensOf {lines : List Text}
    (tokens : tokensOf defs (numbered k lines) = some ts) (before : next = none ∨ next = some k) :
    Consecutive next ts := by
  induction lines generalizing defs k ts next with
  | nil =>
    obtain rfl := Option.some.inj tokens
    trivial
  | cons line lines ih =>
    obtain ⟨⟨t, defs'⟩, isToken, rest⟩ := bind_eq_some_iff.1 tokens
    obtain ⟨us, isRest, rfl⟩ := map_eq_some_iff.1 rest
    refine ⟨?_, ?_⟩
    · rintro n l rfl
      obtain ⟨_, rfl⟩ := token_text isToken
      exact before
    · cases t with
      | text n l =>
        obtain ⟨_, rfl⟩ := token_text isToken
        exact ih isRest (.inr rfl)
      | _ => exact ih isRest (.inl rfl)

theorem numbered_append (b : Nat) (lines : List Text) (t : Text) :
    numbered b (lines ++ [t]) = numbered b lines ++ [(b + lines.length, t)] := by
  induction lines generalizing b with
  | nil => rfl
  | cons line lines ih =>
    rw [cons_append, numbered, ih, Nat.add_right_comm]
    rfl

def runOut : Part → Option (Nat × List Text) → List (Nat × Text)
  | .body, some (b, lines) => numbered b lines
  | _, _ => []

def runNext (run : Option (Nat × List Text)) : Option Nat := run.map fun r => r.1 + r.2.length

theorem out_withRun (truth : Text → Bool) (run : Option (Nat × List Text)) (items : Items) :
    (withRun run items).out truth = runOut .body run ++ items.out truth := by
  cases run with
  | none => rfl
  | some run => rfl

/-- With consecutive numbers, the lines of the tree are the lines that are kept. -/
theorem out_items (truth : Text → Bool) :
    {p : Part} → (src : Src p) → (run : Option (Nat × List Text)) →
      Consecutive (runNext run) src.tokens →
      (src.items run).out truth = runOut p run ++ src.kept truth
  | _, .nil, run, _ => out_withRun truth run .nil
  | _, .line n t rest, none, numbers => by
      rw [Src.items, out_items truth rest (some (extend none n t)) numbers.2]
      rfl
  | _, .line n t rest, some run, numbers => by
      have follows : run.1 + run.2.length = n :=
        Option.some.inj ((numbers.1 n t rfl).resolve_left (some_ne_none _))
      have next : runNext (some (extend (some run) n t)) = some (n + 1) := by
        simp [runNext, extend, ← follows, Nat.add_assoc]
      rw [Src.items, out_items truth rest _ (next ▸ numbers.2)]
      simp only [runOut, extend, numbered_append, Src.kept]
      rw [follows, append_assoc]
      rfl
  | _, .define rest, run, numbers => by
      rw [Src.items, out_withRun, out_items truth rest none numbers.2]
      rfl
  | _, .block c left others rest, run, numbers => by
      have first := numbers.2.append
      have second := first.2.append
      rw [Src.items, out_withRun, Items.out, out_items truth left none first.1,
        out_items truth others none second.1, out_items truth rest none second.2.2]
      rfl
  | _, .noMore, run, _ => by cases run <;> rfl
  | _, .elifCond c left others, run, numbers => by
      have first := numbers.2.append
      rw [Src.items, Items.out, out_items truth left none first.1,
        out_items truth others none first.2]
      cases run <;> exact append_nil _
  | _, .elseCond right, run, numbers => by
      rw [Src.items, out_items truth right none numbers.2]
      cases run <;> rfl

/-! ### What is read from a file -/

def LastLineOk (file : Text) : Prop :=
  (pieces file).2 = [] ∨ (directive (cutBlanks (pieces file).2)).isSome ∨
    LastRead (pieces file).2 ∧
      (pieces file).1.getLast?.any fun line => (directive (cutBlanks line)).isNone

instance (file : Text) : Decidable (LastLineOk file) := inferInstanceAs (Decidable (_ ∨ _ ∨ _ ∧ _))

theorem tokensOf_snoc {lines : List (Nat × Text)} {x : Nat × Text}
    (tokens : tokensOf defs (lines ++ [x]) = some us) :
    ∃ ts defs' r, tokensOf defs lines = some ts ∧ token defs' x = some r ∧ us = ts ++ [r.1] ∧
      ∀ y r', token defs' y = some r' → tokensOf defs (lines ++ [y]) = some (ts ++ [r'.1]) := by
  induction lines generalizing defs us with
  | nil =>
    obtain ⟨r, isToken, rest⟩ := bind_eq_some_iff.1 tokens
    obtain rfl := Option.some.inj rest
    refine ⟨[], defs, r, rfl, isToken, rfl, fun y r' isToken' => ?_⟩
    rw [nil_append, tokensOf, isToken']
    rfl
  | cons line lines ih =>
    obtain ⟨t, isToken, rest⟩ := bind_eq_some_iff.1 tokens
    obtain ⟨vs, isRest, rfl⟩ := map_eq_some_iff.1 rest
    obtain ⟨ts, defs', r, isTs, isLast, rfl, other⟩ := ih isRest
    refine ⟨t.1 :: ts, defs', r, ?_, isLast, rfl, fun y r' isToken' => ?_⟩
    · rw [tokensOf, isToken, bind_some, isTs]
      rfl
    · rw [cons_append, tokensOf, isToken, bind_some, other y r' isToken']
      rfl

theorem drop_of_append {α : Type*} {t l m : List α} (h : l ++ m <+: t.drop k) :
    l <+: t.drop k ∧ m <+: t.drop (k + l.length) := by
  refine ⟨(prefix_append l m).trans h, ?_⟩
  obtain ⟨rest, eq⟩ := h
  rw [← drop_drop, ← eq, append_assoc, drop_left]
  exact prefix_append m rest

theorem getElem?_of_cons {α : Type*} {t l : List α} {a : α} (h : a :: l <+: t.drop k) :
    t[k]? = some a ∧ l <+: t.drop (k + 1) := by
  refine ⟨?_, (drop_of_append (l := [a]) h).2⟩
  obtain ⟨rest, eq⟩ := h
  have first : (t.drop k)[0]? = some a := by rw [← eq]; rfl
  rwa [List.getElem?_drop] at first

theorem at_of_flat {t : List ConfNode} {items : Items}
    (stands : (flat k items).map untag <+: t.drop k) : items.At t k := by
  induction items generalizing k with
  | nil => trivial
  | text b lines rest ih =>
    have first := getElem?_of_cons stands
    exact ⟨first.1, ih first.2⟩
  | cond c tag left right rest ihl ihr ih =>
    have first := getElem?_of_cons stands
    rw [map_append, map_append] at first
    have second := drop_of_append first.2
    rw [length_map, length_flat] at second
    have third := drop_of_append second.2
    rw [length_map, length_flat] at third
    exact ⟨first.1, ihl second.1, ihr third.1, ih third.2⟩

theorem checkCond_of_mem {conf : LsConf} {truth : Text → Bool}
    (values : conf.values = conf.conds.map truth)
    {c : Text} (mem : c ∈ conf.conds) : checkCond conf c = truth c := by
  have lt := idxOf_lt_length_of_mem mem
  rw [checkCond, values, List.getElem?_map, List.getElem?_eq_getElem lt, getElem_idxOf lt]
  rfl

theorem lsGetconf_reads {file : Text} {src : Src .body}
    (nested : tokensOf [] (readLines (file.length + 1) 0 file) = some src.tokens)
    (truth : Text → Bool) :
    ∃ conf, lsGetconf file truth = some conf ∧
      ∀ lines, (∃ fuel n, readAll fuel n conf = some lines) ↔
        lines = (src.items none).out truth := by
  obtain ⟨b, loop, nodes, rootNode, clean⟩ := getconfLoop_src nested
  let conf : LsConf :=
    { nodes := b.nodes, conds := b.conds, values := b.conds.map truth, curNode := b.rootNode }
  have stands : (src.items none).At (b.nodes.map untag) 0 := by
    refine at_of_flat ?_
    simpa only [drop_zero, nodes] using prefix_rfl
  have inside : Inside (b.nodes.map untag) truth [] conf := by
    refine ⟨rfl, ?_, rfl, ?_, nofun, List.Pairwise.nil⟩
    · intro node mem c cond
      obtain ⟨node, old, rfl⟩ := mem_map.1 mem
      exact checkCond_of_mem rfl ((clean node old).2 c cond)
    · intro i node found
      exact ⟨fun pased => absurd pased (clean node (mem_of_getElem? found)).1, nofun⟩
  have cur : conf.curNode = ptr 0 (src.items none) := rootNode
  refine ⟨conf, by rw [lsGetconf, loop]; rfl, fun lines => ?_⟩
  exact readAll_fresh cur stands inside rfl

theorem fileLines_numbered (file : Text) :
    numbered 1 (fileLines file) = numbered 1 ((pieces file).1.map cutBlanks) ++
      if (pieces file).2 = [] then []
      else [(1 + ((pieces file).1.map cutBlanks).length, cutBlanks (pieces file).2)] := by
  unfold fileLines
  split
  · rw [append_nil, append_nil]
  · rw [map_append, map_singleton, numbered_append]

theorem lastRead_of_directive {last : Text} (dir : (directive (cutBlanks last)).isSome) :
    LastRead last := by
  refine .inr (Nat.lt_of_not_le fun short => ?_)
  have none : directive (cutBlanks last) = none := by
    match cutBlanks last, short with
    | [], _ => rfl
    | [c], _ =>
      by_cases blank : isspace c = true
      · simp [directive, getNextWord, blank]
      · simp only [directive, getNextWord, List.dropWhile, blank, List.takeWhile]
        split
        · rename_i eq
          obtain ⟨⟨rfl, rfl⟩, rfl⟩ := eq
          rfl
        · rfl
  rw [none] at dir
  exact Bool.false_ne_true dir

theorem last_token {lines : List Text} (tokens : tokensOf defs (numbered k lines) = some ts) :
    (∃ n s, ts.getLast? = some (.text n s)) ↔
      lines.getLast?.any fun line => (directive line).isNone := by
  rcases eq_nil_or_concat lines with rfl | ⟨before, line, rfl⟩
  · obtain rfl := Option.some.inj tokens
    simp
  · rw [concat_eq_append, numbered_append] at tokens
    rw [concat_eq_append]
    obtain ⟨us, defs', r, _, isToken, rfl, _⟩ := tokensOf_snoc tokens
    rw [List.getLast?_concat, List.getLast?_concat, any_some]
    cases dir : directive line with
    | none =>
      rw [token_of_text dir] at isToken
      obtain rfl := Option.some.inj isToken
      exact ⟨fun _ => rfl, fun _ => ⟨_, _, rfl⟩⟩
    | some d =>
      refine ⟨?_, fun no => absurd no Bool.false_ne_true⟩
      rintro ⟨n, s, eq⟩
      obtain ⟨t, defs''⟩ := r
      obtain rfl := Option.some.inj eq
      cases dir.symm.trans (token_text isToken).1

theorem out_last_text {src : Src .body} (truth : Text → Bool)
    (numbers : Consecutive none (src.tokens ++ [.text (n + 1) t])) :
    ((src.snoc (n + 1) t).kept truth = ((src.snoc n t).items none).out truth) ↔
      ∃ k s, src.tokens.getLast? = some (.text k s) := by
  have right : ((src.snoc (n + 1) t).items none).out truth = (src.snoc (n + 1) t).kept truth :=
    out_items truth _ none (by rw [tokens_snoc]; exact numbers)
  constructor
  · intro same
    by_contra other
    push Not at other
    have start : src.tokens.getLast?.elim none Token.nextNum = none := by
      rcases last : src.tokens.getLast? with _ | (_ | _) <;>
        first | rfl | exact absurd last (other _ _)
    have wrong := out_items truth (src.snoc n t) none <| by
      rw [tokens_snoc]
      exact consecutive_append.2 ⟨numbers.append.1, fun _ _ _ => .inl start, trivial⟩
    rw [wrong, kept_snoc, kept_snoc] at same
    simp [runOut] at same
  · rintro ⟨k, s, last⟩
    obtain ⟨src, rfl⟩ := exists_snoc src last
    rw [← right, items_snoc_congr src none]

/-- A nested file is read as it stands exactly if its last line is. -/
theorem readConf_kept_iff (file : Text) (truth : Text → Bool) (src : Src .body)
    (nested : tokensOf [] (numbered 1 (fileLines file)) = some src.tokens) :
    (∃ conf, lsGetconf file truth = some conf ∧
        ∃ fuel n, readAll fuel n conf = some (src.kept truth)) ↔ LastLineOk file := by
  have read := readLines_pieces (Nat.lt_succ_of_le (lineCount_le_length file)) 0
  simp only [Nat.zero_add] at read
  have numbers : Consecutive none src.tokens := consecutive_tokensOf nested (.inl rfl)
  have same : ∀ {src' : Src .body},
      tokensOf [] (readLines (file.length + 1) 0 file) = some src'.tokens →
      ((∃ conf, lsGetconf file truth = some conf ∧
        ∃ fuel n, readAll fuel n conf = some (src.kept truth)) ↔
        src.kept truth = (src'.items none).out truth) := by
    intro src' tokens
    obtain ⟨conf, isConf, reads⟩ := lsGetconf_reads tokens truth
    rw [isConf, ← reads]
    simp
  rw [fileLines_numbered] at nested
  by_cases terminated : (pieces file).2 = []
  · -- every line has its newline
    have unread : ¬ LastRead (pieces file).2 := by
      rw [terminated]
      decide
    rw [if_pos terminated, append_nil] at nested
    rw [if_neg unread, append_nil] at read
    rw [same (by rw [read]; exact nested), out_items truth src none numbers]
    exact ⟨fun _ => .inl terminated, fun _ => rfl⟩
  · rw [if_neg terminated] at nested
    obtain ⟨ts, defs', r, isTs, isToken, split, other⟩ := tokensOf_snoc nested
    cases dir : directive (cutBlanks (pieces file).2) with
    | some d =>
      have isDirective : (directive (cutBlanks (pieces file).2)).isSome := by rw [dir]; rfl
      rw [if_pos (lastRead_of_directive isDirective)] at read
      have tokens := other _ r ((token_number dir defs' (pieces file).1.length _).trans isToken)
      rw [← split, ← read] at tokens
      rw [same tokens, out_items truth src none numbers]
      exact ⟨fun _ => .inr (.inl isDirective), fun _ => rfl⟩
    | none =>
      rw [token_of_text dir] at isToken
      obtain rfl := Option.some.inj isToken
      obtain ⟨before, rfl⟩ := exists_snoc src (by rw [split, List.getLast?_concat])
      rw [tokens_snoc] at split numbers
      obtain rfl := append_cancel_right split
      have ok : LastLineOk file ↔ LastRead (pieces file).2 ∧
          ∃ k s, before.tokens.getLast? = some (.text k s) := by
        rw [last_token isTs, List.getLast?_map, Option.any_map, LastLineOk, dir]
        simp [terminated]
      rw [ok]
      by_cases lastRead : LastRead (pieces file).2
      · rw [if_pos lastRead] at read
        have tokens := other _ _ (token_of_text dir defs' (pieces file).1.length)
        rw [← tokens_snoc, ← read] at tokens
        rw [length_map, Nat.add_comm 1] at numbers
        rw [same tokens, length_map, Nat.add_comm 1, out_last_text truth numbers]
        exact ⟨fun text => ⟨lastRead, text⟩, And.right⟩
      · rw [if_neg lastRead, append_nil] at read
        rw [same (by rw [read]; exact isTs), out_items truth before none numbers.append.1,
          kept_snoc]
        refine ⟨fun eq => ?_, fun h => absurd h.1 lastRead⟩
        exact absurd (congrArg List.length eq) (by simp [runOut])

/-- A file that ends in the middle of a line of text behind another one. -/
theorem readConf_kept_iff_openEnd :
    (∃ conf, lsGetconf "#if A\na\n#else\nb\n#endif\nc\nd".toList (fun _ => true) = some conf ∧
        ∃ fuel n, readAll fuel n conf =
          some [(2, "a".toList), (6, "c".toList), (7, "d".toList)]) ↔
      LastLineOk "#if A\na\n#else\nb\n#endif\nc\nd".toList :=
  readConf_kept_iff _ _
    (.block "A".toList (.line 2 "a".toList .nil) (.elseCond (.line 4 "b".toList .nil))
      (.line 6 "c".toList (.line 7 "d".toList .nil))) (by decide +kernel)

/-- Behind a directive, a last line without its newline is read with the number of the line
before. -/
theorem openEnd_misnumbered :
    tokensOf [] (numbered 1 (fileLines "#if A\n#endif\nx".toList)) =
        some (Src.block "A".toList .nil .noMore (.line 3 "x".toList .nil)).tokens ∧
      (Src.block "A".toList .nil .noMore (.line 3 "x".toList .nil)).kept (fun _ => true) =
        [(3, "x".toList)] ∧
      (lsGetconf "#if A\n#endif\nx".toList fun _ => true).bind (readAll 9 9) =
        some [(2, "x".toList)] ∧
      ¬ LastLineOk "#if A\n#endif\nx".toList := by
  decide +kernel

end Jhlava.Conf
