import Jhlava.DepTurns

/-! What `parseDepCond` asks of `preceTable`. A waiting parenthesis is on the same stack as
the operators, and its type is beyond the table. -/
namespace Jhlava.Dep
open List

/-- The numbers of `dptType`. -/
def DptType.toNat : DptType → Nat
  | .and => 0 | .or => 1 | .not => 2 | .left => 3 | .right => 4
  | .done => 5 | .exit => 6 | .started => 7 | .name => 8 | .ended => 9
  | .numpend => 10 | .numhold => 11 | .numrun => 12 | .numexit => 13 | .numdone => 14
  | .numstart => 15 | .numended => 16
  | .comma => 17
  | .gt => 18 | .ge => 19 | .lt => 20 | .le => 21 | .eq => 22 | .ne => 23
  | .postDone => 24 | .postErr => 25 | .always => 26 | .window => 27

def nextOperator (s : List Char) : Option DptType :=
  match getToken s with
  | some (⟨.and, _⟩, _) => some .and
  | some (⟨.or, _⟩, _) => some .or
  | some (⟨.not, _⟩, _) => some .not
  | _ => none

/-- The indices of `preceTable` that the next turn asks for. -/
def consulted (c : Config) : List Nat :=
  match nextOperator c.s, c.st.operators with
  | some type, prev :: _ => [prev.toNat, type.toNat]
  | _, _ => []

def Item.nesting : Item → Int
  | .left => 1
  | .right => -1
  | .op _ | .operand _ => 0

section Nesting

variable (env : DepEnv) (lsfUserName : String) (windowConf : Bool) (pastTable : Int)

/-- The items the main loop has read of a text, and its state behind them. -/
inductive ReadTo (s : List Char) : List Item → Config → Prop where
  | start : ReadTo s [] (Config.start s)
  | turn {items : List Item} {c c' : Config} {fuel : Nat} {item : Item} (before : ReadTo s items c)
      (read : readItem env lsfUserName windowConf c.l fuel c.s = .ok (some (item, c'.l, c'.s)))
      (fed : feed pastTable c.st item = some c'.st) : ReadTo s (items ++ [item]) c'

def openParens (items : List Item) : Int := (items.map Item.nesting).sum

variable {env lsfUserName windowConf pastTable}

variable {s : List Char} {type : DptType}

theorem reached_iff_readTo {c : Config} :
    Reached env lsfUserName windowConf pastTable s c ↔
      ∃ items, ReadTo env lsfUserName windowConf pastTable s items c := by
  constructor
  · intro reached
    induction reached with
    | start => exact ⟨[], .start⟩
    | turn _ step ih =>
      obtain ⟨items, before⟩ := ih
      obtain ⟨fuel, item, read, fed⟩ := step
      exact ⟨items ++ [item], before.turn read fed⟩
  · rintro ⟨items, readTo⟩
    induction readTo with
    | start => exact .start
    | turn _ read fed ih => exact ih.turn ⟨_, _, read, fed⟩

def Layered (depth : Nat) (operators : List DptType) : Prop :=
  ∃ ops, operators = List.replicate depth .left ++ ops ∧
    ∀ op ∈ ops, op = .and ∨ op = .or ∨ op = .not

theorem mergeLeft_eq_none {ops : List DptType} (plain : ∀ op ∈ ops, op ≠ .left)
    (xs : List DptNode) : mergeLeft ops xs = none := by
  induction ops generalizing xs with
  | nil => rfl
  | cons op ops ih =>
    obtain ⟨here, below⟩ := forall_mem_cons.mp plain
    rw [mergeLeft, if_neg here]
    cases mergeOperands op xs with
    | none => rfl
    | some xs => exact ih below xs

theorem pushOperator_layered {st st' : Stacks} (pushed : pushOperator pastTable type st = some st')
    (isOp : type = .and ∨ type = .or ∨ type = .not) (layered : Layered 0 st.operators) :
    Layered 0 st'.operators := by
  obtain ⟨ops, eq, plain⟩ := layered
  rw [replicate_zero, nil_append] at eq
  rw [pushOperator, eq] at pushed
  cases ops with
  | nil =>
    cases pushed
    exact ⟨[type], rfl, forall_mem_singleton.mpr isOp⟩
  | cons prev ops =>
    dsimp only at pushed
    split at pushed
    · obtain ⟨xs, -, rfl⟩ := Option.map_eq_some_iff.mp pushed
      exact ⟨type :: ops, rfl, forall_mem_cons.mpr ⟨isOp, (forall_mem_cons.mp plain).2⟩⟩
    · cases pushed
      exact ⟨type :: prev :: ops, rfl, forall_mem_cons.mpr ⟨isOp, plain⟩⟩

theorem feed_layered {st st' : Stacks} {item : Item} {depth : Nat}
    (fed : feed pastTable st item = some st') (layered : Layered depth st.operators)
    (operator : ∀ type, item = .op type → (type = .and ∨ type = .or ∨ type = .not) ∧ depth = 0) :
    ∃ depth' : Nat, (depth' : Int) = depth + item.nesting ∧ Layered depth' st'.operators := by
  cases item with
  | op type =>
    obtain ⟨isOp, rfl⟩ := operator type rfl
    exact ⟨0, rfl, pushOperator_layered fed isOp layered⟩
  | left =>
    obtain ⟨ops, eq, plain⟩ := layered
    cases fed
    refine ⟨depth + 1, rfl, ops, ?_, plain⟩
    rw [eq]
    rfl
  | right =>
    obtain ⟨ops, eq, plain⟩ := layered
    rw [feed, eq] at fed
    cases depth with
    | zero =>
      have none_ := @mergeLeft_eq_none ops (fun op mem => ?_) st.operands
      · rw [replicate_zero, nil_append, none_] at fed
        cases fed
      · rcases plain op mem with rfl | rfl | rfl <;> simp
    | succ depth =>
      cases fed
      exact ⟨depth, by simp [Item.nesting], ops, rfl, plain⟩
  | operand node =>
    cases fed
    exact ⟨depth, (Int.add_zero _).symm, layered⟩

theorem nextOperator_of_read {l l' : Locals} {fuel : Nat} {s' : List Char}
    (read : readItem env lsfUserName windowConf l fuel s = .ok (some (.op type, l', s'))) :
    nextOperator s = some type := by
  obtain ⟨isOp, text, token⟩ := readItem_op read
  rw [nextOperator, token]
  rcases isOp with rfl | rfl | rfl <;> rfl

theorem readTo_layered {items : List Item} {c : Config}
    (readTo : ReadTo env lsfUserName windowConf pastTable s items c)
    (flat : ∀ items c, ReadTo env lsfUserName windowConf pastTable s items c →
      ∀ depth : Nat, openParens items = depth → Layered depth c.st.operators →
        nextOperator c.s ≠ none → depth = 0) :
    ∃ depth : Nat, openParens items = depth ∧ Layered depth c.st.operators := by
  induction readTo with
  | start => exact ⟨0, rfl, [], rfl, forall_mem_nil _⟩
  | @turn items c c' fuel item before read fed ih =>
    obtain ⟨depth, opened, layered⟩ := ih
    have operator : ∀ type, item = .op type →
        (type = .and ∨ type = .or ∨ type = .not) ∧ depth = 0 := by
      rintro type rfl
      refine ⟨(readItem_op read).1, flat items c before depth opened layered ?_⟩
      rw [nextOperator_of_read read]
      exact Option.some_ne_none type
    obtain ⟨depth', count, layered'⟩ := feed_layered fed layered operator
    refine ⟨depth', ?_, layered'⟩
    rw [openParens, map_append, sum_append, ← openParens, opened, count]
    simp

theorem nextOperator_cases (h : nextOperator s = some type) :
    type = .and ∨ type = .or ∨ type = .not := by
  unfold nextOperator at h
  split at h <;> cases h <;> simp

theorem DptType.toNat_le (isOp : type = .and ∨ type = .or ∨ type = .not) : type.toNat ≤ 2 := by
  rcases isOp with rfl | rfl | rfl <;> decide

/-- The table is asked only for what it has, exactly if no operator of the text stands
between a parenthesis and the one that closes it. -/
theorem consulted_inside_iff (s : List Char) :
    (∀ c, Reached env lsfUserName windowConf pastTable s c → ∀ i ∈ consulted c, i ≤ 2) ↔
      ∀ items c, ReadTo env lsfUserName windowConf pastTable s items c →
        nextOperator c.s ≠ none → openParens items = 0 := by
  constructor
  · intro inside
    -- a parenthesis on top of the stack is asked for before an operator covers it
    have flat : ∀ items c, ReadTo env lsfUserName windowConf pastTable s items c →
        ∀ depth : Nat, openParens items = depth → Layered depth c.st.operators →
          nextOperator c.s ≠ none → depth = 0 := by
      intro items c readTo depth _ layered operator
      cases depth with
      | zero => rfl
      | succ depth =>
        obtain ⟨ops, eq, -⟩ := layered
        obtain ⟨type, next⟩ := Option.ne_none_iff_exists'.mp operator
        have small := inside c (reached_iff_readTo.mpr ⟨items, readTo⟩) DptType.left.toNat (by
          rw [consulted, next, eq]
          exact mem_cons_self)
        exact absurd small (by decide)
    intro items c readTo operator
    obtain ⟨depth, opened, layered⟩ := readTo_layered readTo flat
    rw [opened, flat items c readTo depth opened layered operator]
    rfl
  · intro balanced c reached i mem
    obtain ⟨items, readTo⟩ := reached_iff_readTo.mp reached
    obtain ⟨depth, opened, layered⟩ :=
      readTo_layered readTo fun items c readTo depth opened _ next =>
      Int.ofNat_inj.mp (opened.symm.trans (balanced items c readTo next))
    cases next : nextOperator c.s with
    | none =>
      rw [consulted, next] at mem
      cases mem
    | some type =>
      have none_ : depth = 0 := Int.ofNat_inj.mp (opened.symm.trans
        (balanced items c readTo (next ▸ Option.some_ne_none type)))
      obtain ⟨ops, eq, plain⟩ := layered
      rw [none_, replicate_zero] at eq
      rw [consulted, next, eq] at mem
      cases ops with
      | nil => cases mem
      | cons prev ops =>
        rcases mem_pair.mp mem with rfl | rfl
        · exact DptType.toNat_le (plain prev mem_cons_self)
        · exact DptType.toNat_le (nextOperator_cases next)

end Nesting

/-- For the operator of `(!a)` the table is asked for the parenthesis. -/
theorem parenthesis_consulted :
    ∃ c, Reached (plainEnv false [plainNode 1 "a" 5]) "amy" false 0 "(!a)".toList c ∧
      consulted c = [3, 2] := by
  refine ⟨⟨Locals.init, ⟨[.left], []⟩, "!a)".toList⟩, ?_, by decide⟩
  have token : getToken "(!a)".toList = some (⟨.left, ['(']⟩, "!a)".toList) := by decide
  refine Reached.start.turn ⟨0, .left, ?_, rfl⟩
  change readItem _ _ _ Locals.init 0 "(!a)".toList = _
  rw [readItem, token]

end Jhlava.Dep
