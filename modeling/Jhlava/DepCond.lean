import Jhlava.DepParse

/-! Dependency conditions as they are written, their value under the usual
precedence, and the tree the two stacks of `parseDepCond` build for them. -/
namespace Jhlava.Dep
open List Option

/-- A written condition, operand by operand: each has a number of `!` before
it, is a term or a condition in parentheses, and all but the last are followed
by `&&` (`true`) or `||` (`false`). -/
inductive Cond (α : Type) where
  | term (nots : Nat) (t : α)
  | paren (nots : Nat) (inner : Cond α)
  | termThen (nots : Nat) (t : α) (conj : Bool) (rest : Cond α)
  | parenThen (nots : Nat) (inner : Cond α) (conj : Bool) (rest : Cond α)

def notTimes : Nat → Bool → Bool
  | 0, x => x
  | k + 1, x => !notTimes k x

/-- The value under the usual precedence; `sofar` is the conjunction being
read, which an `||` closes. -/
def Cond.valueFrom {α : Type} (v : α → Bool) (sofar : Bool) : Cond α → Bool
  | .term k t => sofar && notTimes k (v t)
  | .paren k d => sofar && notTimes k (d.valueFrom v true)
  | .termThen k t true r => r.valueFrom v (sofar && notTimes k (v t))
  | .termThen k t false r => (sofar && notTimes k (v t)) || r.valueFrom v true
  | .parenThen k d true r => r.valueFrom v (sofar && notTimes k (d.valueFrom v true))
  | .parenThen k d false r => (sofar && notTimes k (d.valueFrom v true)) || r.valueFrom v true

def Cond.value {α : Type} (v : α → Bool) (c : Cond α) : Bool := c.valueFrom v true

def opType : Bool → DptType
  | true => .and
  | false => .or

def Cond.items : Cond DptNode → List Item
  | .term k t => List.replicate k (.op .not) ++ [.operand t]
  | .paren k d => List.replicate k (.op .not) ++ .left :: d.items ++ [.right]
  | .termThen k t c r =>
    List.replicate k (.op .not) ++ [.operand t] ++ .op (opType c) :: r.items
  | .parenThen k d c r =>
    List.replicate k (.op .not) ++ .left :: d.items ++ [.right] ++ .op (opType c) :: r.items

abbrev Pending := Option (Bool × DptNode)

def negTimes : Nat → DptNode → DptNode
  | 0, x => x
  | k + 1, x => .not (negTimes k x)

def lastTree (top : Pending) (k : Nat) (x : DptNode) : DptNode :=
  match top with
  | none => negTimes k x
  | some (d, v) => .binary (opType d) (negTimes k x) v

/-- An operator comes after `k` negations and `x`. It merges one entry of the
operator stack at most: the last `!`, or a pending `&&` when it is `||`. What
stays below waits for everything that follows. -/
def stepTree (top : Pending) (k : Nat) (x : DptNode) (c : Bool) (rest : Pending → DptNode) :
    DptNode :=
  match k, top with
  | 0, none => rest (some (c, x))
  | 0, some (d, v) =>
    if d && !c then rest (some (c, .binary .and x v))
    else .binary (opType d) (rest (some (c, x))) v
  | k + 1, top => lastTree top k (rest (some (c, .not x)))

/-- The tree the stacks end with when `top` waits on them. -/
def Cond.tree (top : Pending) : Cond DptNode → DptNode
  | .term k t => lastTree top k t
  | .paren k d => lastTree top k (d.tree none)
  | .termThen k t c r => stepTree top k t c fun top => r.tree top
  | .parenThen k d c r => stepTree top k (d.tree none) c fun top => r.tree top

def withTop : Pending → Stacks → Stacks
  | none, st => st
  | some (d, v), st => ⟨opType d :: st.operators, v :: st.operands⟩

def closeAll : List DptType → List DptNode → Option (List DptNode)
  | [], xs => some xs
  | op :: ops, xs => (mergeOperands op xs).bind (closeAll ops)

theorem closeAll_append (ops ops' : List DptType) (xs : List DptNode) :
    closeAll (ops ++ ops') xs = (closeAll ops xs).bind (closeAll ops') := by
  induction ops generalizing xs with
  | nil => rfl
  | cons op ops ih =>
    simp only [cons_append, closeAll]
    cases mergeOperands op xs with
    | none => rfl
    | some ys => exact ih ys

theorem closeAll_nots (k : Nat) (x : DptNode) (xs : List DptNode) :
    closeAll (List.replicate k .not) (x :: xs) = some (negTimes k x :: xs) := by
  induction k generalizing x with
  | zero => rfl
  | succ k ih =>
    have shift : ∀ (j : Nat) (y : DptNode), negTimes j (.not y) = .not (negTimes j y) := by
      intro j y
      induction j with
      | zero => rfl
      | succ j ihj => simp only [negTimes, ihj]
    simp only [replicate_succ, closeAll, mergeOperands, bind_some, ih, negTimes, shift]

theorem mergeOperands_opType (c : Bool) (x y : DptNode) (xs : List DptNode) :
    mergeOperands (opType c) (x :: y :: xs) = some (.binary (opType c) x y :: xs) := by
  cases c <;> rfl

theorem closeAll_lastTree (top : Pending) (k : Nat) (ops : List DptType) (xs : List DptNode) :
    ∃ fops, List.replicate k .not ++ (withTop top ⟨ops, xs⟩).operators = fops ++ ops ∧
      .left ∉ fops ∧ ∀ x,
      closeAll fops (x :: (withTop top ⟨ops, xs⟩).operands) = some (lastTree top k x :: xs) := by
  match top with
  | none =>
    refine ⟨List.replicate k .not, rfl, by simp, ?_⟩
    exact fun x => closeAll_nots k x xs
  | some (d, v) =>
    refine ⟨List.replicate k .not ++ [opType d], by simp [withTop], ?_, ?_⟩
    · cases d <;> simp [opType]
    · intro x
      rw [closeAll_append]
      simp only [withTop, closeAll_nots, bind_some, closeAll, mergeOperands_opType, lastTree]

variable {c : Cond DptNode} {pastTable : Int} {st st' : Stacks} {xs : List DptNode}

variable {fops : List DptType}

theorem mergeLeft_append (clean : .left ∉ fops) (ops : List DptType) {ys : List DptNode}
    (h : closeAll fops xs = some ys) : mergeLeft (fops ++ .left :: ops) xs = some ⟨ops, ys⟩ := by
  induction fops generalizing xs with
  | nil =>
    cases h
    simp [mergeLeft]
  | cons op fops ih =>
    simp only [mem_cons, not_or] at clean
    obtain ⟨zs, hz, h⟩ := bind_eq_some_iff.mp h
    simp only [cons_append, mergeLeft, Ne.symm clean.1, if_false, hz, bind_some]
    exact ih clean.2 h

theorem mergeAll_closeAll {ys : List DptNode} (h : closeAll fops xs = some ys) :
    mergeAll fops xs = ⟨[], ys⟩ := by
  induction fops generalizing xs with
  | nil =>
    cases h
    rfl
  | cons op fops ih =>
    obtain ⟨zs, hz, h⟩ := bind_eq_some_iff.mp h
    simp only [mergeAll, hz]
    exact ih h

theorem feedAll_nots (k : Nat) (st : Stacks) :
    feedAll 0 st (List.replicate k (.op .not)) =
      some ⟨List.replicate k .not ++ st.operators, st.operands⟩ := by
  have push : ∀ st : Stacks, pushOperator 0 .not st = some ⟨.not :: st.operators, st.operands⟩ := by
    rintro ⟨ops, xs⟩
    unfold pushOperator
    cases ops with
    | nil => rfl
    | cons prev ops =>
      have low : ¬ preceTable 0 prev > preceTable 0 .not := by cases prev <;> decide
      simp only [low, if_false]
  induction k generalizing st with
  | zero => rfl
  | succ k ih =>
    simp only [replicate_succ, feedAll, feed, push, bind_some, ih]
    rw [← replicate_succ, replicate_succ', append_assoc, singleton_append]

theorem feedAll_term (k : Nat) (t : DptNode) (st : Stacks) :
    feedAll 0 st (List.replicate k (.op .not) ++ [.operand t]) =
      some ⟨List.replicate k .not ++ st.operators, t :: st.operands⟩ := by
  rw [feedAll_append, feedAll_nots]
  rfl

def Fresh (top : Pending) (ops : List DptType) : Prop :=
  top = none → ops = [] ∨ ∃ rest, ops = .left :: rest

def Reads (c : Cond DptNode) : Prop :=
  ∀ (top : Pending) (ops : List DptType) (xs : List DptNode), Fresh top ops →
    ∃ fops ys, feedAll 0 (withTop top ⟨ops, xs⟩) c.items = some ⟨fops ++ ops, ys⟩ ∧
      .left ∉ fops ∧ closeAll fops ys = some (c.tree top :: xs)

theorem feedAll_paren {d : Cond DptNode} (h : Reads d) (k : Nat) (st : Stacks) :
    feedAll 0 st (List.replicate k (.op .not) ++ .left :: d.items ++ [.right]) =
      some ⟨List.replicate k .not ++ st.operators, d.tree none :: st.operands⟩ := by
  obtain ⟨fops, ys, hread, clean, hclose⟩ :=
    h none (.left :: (List.replicate k .not ++ st.operators)) st.operands
      (fun _ => Or.inr ⟨_, rfl⟩)
  simp only [withTop] at hread
  rw [append_assoc, feedAll_append, feedAll_nots, cons_append]
  simp only [feedAll, feed, bind_some]
  rw [feedAll_append, hread]
  simp only [bind_some, feedAll, feed, mergeLeft_append clean _ hclose]

theorem reads_last {k : Nat} {x : DptNode}
    (hfeed : ∀ st, feedAll 0 st c.items =
      some ⟨List.replicate k .not ++ st.operators, x :: st.operands⟩)
    (htree : ∀ top, c.tree top = lastTree top k x) : Reads c := by
  intro top ops xs _
  obtain ⟨fops, hops, clean, hclose⟩ := closeAll_lastTree top k ops xs
  refine ⟨fops, x :: (withTop top ⟨ops, xs⟩).operands, ?_, clean, ?_⟩
  · rw [hfeed, hops]
  · rw [hclose, htree]

theorem push_opType {top : Pending} {ops : List DptType} (fresh : Fresh top ops) (k : Nat)
    (x : DptNode) (c : Bool) (xs : List DptNode) :
    ∃ v fops ys, .left ∉ fops ∧
      pushOperator 0 (opType c)
        ⟨List.replicate k .not ++ (withTop top ⟨ops, xs⟩).operators,
          x :: (withTop top ⟨ops, xs⟩).operands⟩ =
        some (withTop (some (c, v)) ⟨fops ++ ops, ys⟩) ∧
      ∀ rest : Pending → DptNode,
        closeAll fops (rest (some (c, v)) :: ys) = some (stepTree top k x c rest :: xs) := by
  match k, top with
  | 0, none =>
    refine ⟨x, [], xs, by simp, ?_, fun rest => rfl⟩
    rcases fresh rfl with rfl | ⟨ops', rfl⟩
    · rfl
    · cases c <;> rfl
  | 0, some (d, v) =>
    by_cases merged : (d && !c) = true
    · simp only [Bool.and_eq_true, Bool.not_eq_true'] at merged
      obtain ⟨rfl, rfl⟩ := merged
      exact ⟨.binary .and x v, [], xs, by simp, rfl, fun rest => rfl⟩
    · refine ⟨x, [opType d], v :: xs, ?_, ?_, ?_⟩
      · cases d <;> simp [opType]
      · cases d <;> cases c <;> first | rfl | exact absurd rfl merged
      · intro rest
        simp only [closeAll, mergeOperands_opType, bind_some, stepTree, merged,
          Bool.false_eq_true, if_false]
  | k + 1, top =>
    obtain ⟨fops, hops, clean, hclose⟩ := closeAll_lastTree top k ops xs
    refine ⟨.not x, fops, (withTop top ⟨ops, xs⟩).operands, clean, ?_, ?_⟩
    · rw [← hops]
      cases c <;> rfl
    · exact fun rest => hclose _

theorem reads_step {r : Cond DptNode} {front : List Item} {k : Nat} {x : DptNode} {conj : Bool}
    (hitems : c.items = front ++ .op (opType conj) :: r.items)
    (hfeed : ∀ st, feedAll 0 st front =
      some ⟨List.replicate k .not ++ st.operators, x :: st.operands⟩)
    (htree : ∀ top, c.tree top = stepTree top k x conj fun top => r.tree top) (hr : Reads r) :
    Reads c := by
  intro top ops xs fresh
  obtain ⟨v, fops, ys, clean, hpush, hclose⟩ := push_opType fresh k x conj xs
  obtain ⟨rops, zs, hread, rclean, rclose⟩ :=
    hr (some (conj, v)) (fops ++ ops) ys (fun h => by cases h)
  refine ⟨rops ++ fops, zs, ?_, ?_, ?_⟩
  · rw [hitems, feedAll_append, hfeed]
    simp only [bind_some, feedAll, feed, hpush, hread, append_assoc]
  · simp [rclean, clean]
  · rw [closeAll_append, rclose, htree]
    exact hclose fun top => r.tree top

theorem reads (c : Cond DptNode) : Reads c := by
  induction c with
  | term k t => exact reads_last (feedAll_term k t) fun _ => rfl
  | paren k d ih => exact reads_last (feedAll_paren ih k) fun _ => rfl
  | termThen k t conj r ih => exact reads_step rfl (feedAll_term k t) (fun _ => rfl) ih
  | parenThen k d conj r ihd ihr =>
    refine reads_step ?_ (feedAll_paren ihd k) (fun _ => rfl) ihr
    simp only [Cond.items]

theorem finish_items (c : Cond DptNode) (h : feedAll 0 ⟨[], []⟩ c.items = some st) :
    finish st = some (c.tree none) := by
  obtain ⟨fops, ys, hread, _, hclose⟩ := reads c none [] [] (fun _ => Or.inl rfl)
  rw [show withTop none ⟨[], []⟩ = ⟨[], []⟩ from rfl, h, append_nil] at hread
  cases hread
  simp only [finish, mergeAll_closeAll hclose]

def OnStack (type : DptType) : Prop := type = .and ∨ type = .or ∨ type = .not ∨ type = .left

def Item.Operator : Item → Prop
  | .op type => type = .and ∨ type = .or ∨ type = .not
  | _ => True

def Item.depth : Item → Int
  | .left => 1
  | .right => -1
  | _ => 0

def depth (items : List Item) : Int := (items.map Item.depth).sum

@[simp] theorem depth_nil : depth [] = 0 := rfl

@[simp] theorem depth_cons (item : Item) (items : List Item) :
    depth (item :: items) = item.depth + depth items := by
  simp [depth]

@[simp] theorem depth_append (items items' : List Item) :
    depth (items ++ items') = depth items + depth items' := by
  simp [depth]

@[simp] theorem depth_nots (k : Nat) : depth (List.replicate k (.op .not)) = 0 := by
  simp [depth, Item.depth]

def Stacks.opened (st : Stacks) : Int := st.operators.count .left

theorem mergeLeft_open {ops : List DptType} (h : mergeLeft ops xs = some st) :
    st.opened = ops.count .left - 1 ∧ ∀ o ∈ st.operators, o ∈ ops := by
  induction ops generalizing xs with
  | nil => cases h
  | cons op ops ih =>
    unfold mergeLeft at h
    split at h
    · rename_i hop
      cases h
      subst hop
      exact ⟨by simp [Stacks.opened], fun o ho => mem_cons_of_mem _ ho⟩
    · rename_i hop
      obtain ⟨ys, _, h⟩ := bind_eq_some_iff.mp h
      obtain ⟨hcount, hmem⟩ := ih h
      refine ⟨?_, fun o ho => mem_cons_of_mem _ (hmem o ho)⟩
      rw [hcount, count_cons_of_ne hop]

theorem preceTable_pastTable {type : DptType} (h : OnStack type) (hleft : type ≠ .left) (p : Int) :
    preceTable p type = preceTable 0 type := by
  rcases h with rfl | rfl | rfl | rfl
  · rfl
  · rfl
  · rfl
  · exact absurd rfl hleft

/-- Only a merged parenthesis makes the byte after the table matter, and then
one parenthesis is missing for good. -/
theorem pushOperator_open {type : DptType} (onStack : ∀ o ∈ st.operators, OnStack o)
    (h : pushOperator pastTable type st = some st') (op : type = .and ∨ type = .or ∨ type = .not) :
    (∀ o ∈ st'.operators, OnStack o) ∧ st'.opened ≤ st.opened ∧
      (st'.opened = st.opened → pushOperator 0 type st = some st') := by
  have htype : OnStack type := by rcases op with h | h | h <;> simp [OnStack, h]
  have hleft : type ≠ .left := by rcases op with rfl | rfl | rfl <;> decide
  have hprece := preceTable_pastTable htype hleft pastTable
  obtain ⟨ops, xs⟩ := st
  cases ops with
  | nil =>
    cases h
    refine ⟨by simpa using htype, ?_, fun _ => rfl⟩
    simp [Stacks.opened, hleft]
  | cons prev ops =>
    have hprev : OnStack prev := onStack prev mem_cons_self
    have hops : ∀ o ∈ ops, OnStack o := fun o ho => onStack o (mem_cons_of_mem _ ho)
    simp only [pushOperator] at h ⊢
    split at h
    · rename_i high
      obtain ⟨ys, hys, rfl⟩ := map_eq_some_iff.mp h
      refine ⟨forall_mem_cons.mpr ⟨htype, hops⟩, ?_, ?_⟩
      · simp only [Stacks.opened, count_cons_of_ne hleft]
        exact Int.ofNat_le.mpr (count_le_count_cons)
      · intro same
        have prevLeft : prev ≠ .left := by
          rintro rfl
          simp only [Stacks.opened, count_cons_of_ne hleft, count_cons_self] at same
          omega
        rw [hprece, preceTable_pastTable hprev prevLeft] at high
        simp [high, hys]
    · rename_i low
      cases h
      refine ⟨forall_mem_cons.mpr ⟨htype, onStack⟩, ?_, ?_⟩
      · simp [Stacks.opened, count_cons_of_ne hleft]
      · intro _
        have low0 : ¬ preceTable 0 prev > preceTable 0 type := by
          by_cases prevLeft : prev = .left
          · subst prevLeft
            rcases op with rfl | rfl | rfl <;> decide
          · rwa [hprece, preceTable_pastTable hprev prevLeft] at low
        rw [if_neg low0]

theorem feed_open {item : Item} (operator : item.Operator) (onStack : ∀ o ∈ st.operators, OnStack o)
    (h : feed pastTable st item = some st') :
    (∀ o ∈ st'.operators, OnStack o) ∧ st'.opened ≤ st.opened + item.depth ∧
      (st'.opened = st.opened + item.depth → feed 0 st item = some st') := by
  cases item with
  | op type => simpa [Item.depth, feed] using pushOperator_open onStack h operator
  | left =>
    cases h
    refine ⟨forall_mem_cons.mpr ⟨by simp [OnStack], onStack⟩, ?_, fun _ => rfl⟩
    simp [Stacks.opened, Item.depth]
  | right =>
    obtain ⟨hopen, hmem⟩ := mergeLeft_open h
    refine ⟨fun o ho => onStack o (hmem o ho), ?_, fun _ => h⟩
    rw [hopen]
    exact Int.le_refl _
  | operand node =>
    cases h
    refine ⟨onStack, ?_, fun _ => rfl⟩
    simp [Stacks.opened, Item.depth]

theorem feedAll_open {items : List Item} (operators : ∀ item ∈ items, item.Operator)
    (onStack : ∀ o ∈ st.operators, OnStack o) (h : feedAll pastTable st items = some st') :
    st'.opened ≤ st.opened + depth items ∧
      (st'.opened = st.opened + depth items → feedAll 0 st items = some st') := by
  induction items generalizing st with
  | nil =>
    cases h
    exact ⟨by simp [depth], fun _ => rfl⟩
  | cons item items ih =>
    simp only [feedAll] at h ⊢
    obtain ⟨st₁, hfeed, h⟩ := bind_eq_some_iff.mp h
    obtain ⟨onStack₁, le₁, same₁⟩ := feed_open (operators item mem_cons_self) onStack hfeed
    obtain ⟨le, same⟩ := ih (fun i hi => operators i (mem_cons_of_mem _ hi)) onStack₁ h
    have hdepth := depth_cons item items
    refine ⟨by omega, fun eq => ?_⟩
    rw [same₁ (by omega)]
    exact same (by omega)

theorem Cond.depth_items (c : Cond DptNode) : depth c.items = 0 := by
  induction c with
  | term k t => simp [Cond.items, Item.depth]
  | paren k d ih => simp [Cond.items, Item.depth, ih]
  | termThen k t conj r ih => simp [Cond.items, Item.depth, ih]
  | parenThen k d conj r ihd ihr => simp [Cond.items, Item.depth, ihd, ihr]

theorem Cond.operator_items (c : Cond DptNode) : ∀ item ∈ c.items, item.Operator := by
  have hop : ∀ conj, (Item.op (opType conj)).Operator := by
    intro conj
    cases conj <;> simp [Item.Operator, opType]
  have hnots : ∀ k, ∀ item ∈ List.replicate k (Item.op .not), item.Operator := by
    intro k item h
    rw [eq_of_mem_replicate h]
    simp [Item.Operator]
  have hterm : ∀ k t, ∀ item ∈ List.replicate k (Item.op .not) ++ [.operand t], item.Operator :=
    fun k t => forall_mem_append.mpr ⟨hnots k, forall_mem_singleton.mpr trivial⟩
  have hparen : ∀ k (d : Cond DptNode), (∀ item ∈ d.items, item.Operator) →
      ∀ item ∈ List.replicate k (Item.op .not) ++ .left :: d.items ++ [.right], item.Operator :=
    fun k d hd => forall_mem_append.mpr
      ⟨forall_mem_append.mpr ⟨hnots k, forall_mem_cons.mpr ⟨trivial, hd⟩⟩,
        forall_mem_singleton.mpr trivial⟩
  induction c with
  | term k t => exact hterm k t
  | paren k d ih => exact hparen k d ih
  | termThen k t conj r ih =>
    exact forall_mem_append.mpr ⟨hterm k t, forall_mem_cons.mpr ⟨hop conj, ih⟩⟩
  | parenThen k d conj r ihd ihr =>
    exact forall_mem_append.mpr ⟨hparen k d ihd, forall_mem_cons.mpr ⟨hop conj, ihr⟩⟩

theorem parseDepCond_tree {env : DepEnv} {lsfUserName : String} {windowConf : Bool} {fuel : Nat}
    {s : List Char} {root : DptNode}
    (accepted : parseDepCond env lsfUserName windowConf pastTable fuel s = .ok root)
    (written : readItems env lsfUserName windowConf fuel Locals.init s = .ok c.items) :
    root = c.tree none := by
  obtain ⟨items, st, hitems, hfeed, hroot⟩ := parseLoop_eq_ok accepted
  rw [written] at hitems
  cases hitems
  obtain ⟨le, same⟩ := feedAll_open c.operator_items (by simp) hfeed
  have low : Stacks.opened ⟨[], []⟩ + depth c.items = 0 := by simp [Stacks.opened, c.depth_items]
  have nonneg : 0 ≤ st.opened := Int.natCast_nonneg _
  have hfinish := finish_items c (same (by omega))
  rw [hroot] at hfinish
  exact Option.some.inj hfinish

end Jhlava.Dep
