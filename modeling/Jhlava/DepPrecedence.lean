import Mathlib.Data.Nat.Bits
import Jhlava.DepCond
import Jhlava.DepTerms

/-! When the tree of `parseDepCond` has the value of the written condition. -/
namespace Jhlava.Dep
open ReadOnce ReadOnce.Formula List

def notsOk (k : Nat) : Bool := k == 0 || k % 2 == 1

theorem notsOk_iff (k : Nat) : notsOk k = true ↔ (k - 1).bodd = false := by
  cases k with
  | zero => simp [notsOk]
  | succ k => cases h : k.bodd <;> simp [notsOk, Nat.mod_two_of_bodd, h]

theorem notTimes_eq (k : Nat) (x : Bool) : notTimes k x = (x ^^ k.bodd) := by
  induction k with
  | zero => simp [notTimes]
  | succ k ih => simp [notTimes, ih]

variable {α : Type}

/-- No operand with an even number of `!`, not zero, stands before an operator. -/
def Cond.NotsOk : Cond α → Prop
  | .term _ _ => True
  | .paren _ d => d.NotsOk
  | .termThen k _ _ r => notsOk k = true ∧ r.NotsOk
  | .parenThen k d _ r => notsOk k = true ∧ d.NotsOk ∧ r.NotsOk

/-- Some `||` follows in the same parentheses. -/
def Cond.hasOr : Cond α → Bool
  | .term _ _ => false
  | .paren _ _ => false
  | .termThen _ _ c r => !c || r.hasOr
  | .parenThen _ _ c r => !c || r.hasOr

/-- The first operand bears no `!` and `||` comes right after it. -/
def Cond.bareOr : Cond α → Bool
  | .termThen k _ c _ => k == 0 && !c
  | .parenThen k _ c _ => k == 0 && !c
  | _ => false

/-- After an `&&` either no `||` follows in the same parentheses, or it comes
right after the next operand, which bears no `!`. -/
def Cond.GroupsOk : Cond α → Prop
  | .term _ _ => True
  | .paren _ d => d.GroupsOk
  | .termThen _ _ c r => (c = true → r.hasOr = true → r.bareOr = true) ∧ r.GroupsOk
  | .parenThen _ d c r =>
    (c = true → r.hasOr = true → r.bareOr = true) ∧ d.GroupsOk ∧ r.GroupsOk

/-! The value of the tree, where `top` is the pending operator with the value
of its operand. -/

def lastValue : Option (Bool × Bool) → Bool → Bool
  | none, x => x
  | some (d, w), x => gateOp d x w

def stepValue (top : Option (Bool × Bool)) (k : Nat) (x c : Bool) (rest : Bool → Bool) : Bool :=
  match k, top with
  | 0, none => rest x
  | 0, some (d, w) => if d && !c then rest (x && w) else gateOp d (rest x) w
  | k + 1, top => lastValue top (notTimes k (rest !x))

def Cond.treeValue (v : α → Bool) (top : Option (Bool × Bool)) : Cond α → Bool
  | .term k t => lastValue top (notTimes k (v t))
  | .paren k d => lastValue top (notTimes k (d.treeValue v none))
  | .termThen k t c r => stepValue top k (v t) c fun w => r.treeValue v (some (c, w))
  | .parenThen k d c r =>
    stepValue top k (d.treeValue v none) c fun w => r.treeValue v (some (c, w))

section Tree

variable (σ : Nat → Bool)

def Pending.value (top : Pending) : Option (Bool × Bool) :=
  top.map fun q => (q.1, q.2.formula.eval σ)

theorem eval_negTimes (k : Nat) (x : DptNode) :
    (negTimes k x).formula.eval σ = notTimes k (x.formula.eval σ) := by
  induction k with
  | zero => rfl
  | succ k ih => simp only [negTimes, notTimes, DptNode.formula, eval, ih]

theorem eval_binary (d : Bool) (x y : DptNode) :
    (DptNode.binary (opType d) x y).formula.eval σ =
      gateOp d (x.formula.eval σ) (y.formula.eval σ) := by
  cases d <;> rfl

theorem eval_lastTree (top : Pending) (k : Nat) (x : DptNode) :
    (lastTree top k x).formula.eval σ =
      lastValue (top.value σ) (notTimes k (x.formula.eval σ)) := by
  match top with
  | none => exact eval_negTimes σ k x
  | some (d, v) =>
    rw [lastTree, eval_binary, eval_negTimes]
    rfl

theorem eval_stepTree (top : Pending) (k : Nat) (x : DptNode) (c : Bool)
    {rest : Pending → DptNode} {rest' : Bool → Bool}
    (h : ∀ y, (rest (some (c, y))).formula.eval σ = rest' (y.formula.eval σ)) :
    (stepTree top k x c rest).formula.eval σ =
      stepValue (top.value σ) k (x.formula.eval σ) c rest' := by
  match k, top with
  | 0, none => exact h x
  | 0, some (d, v) =>
    simp only [stepTree, stepValue, Pending.value, Option.map_some]
    split
    · exact h _
    · rw [eval_binary, h]
  | k + 1, top =>
    rw [stepTree, eval_lastTree, h]
    rfl

theorem Cond.eval_tree (c : Cond DptNode) (top : Pending) :
    (c.tree top).formula.eval σ = c.treeValue (fun t => t.formula.eval σ) (top.value σ) := by
  induction c generalizing top with
  | term k t => exact eval_lastTree σ top k t
  | paren k d ih =>
    rw [Cond.tree, eval_lastTree, ih]
    rfl
  | termThen k t conj r ih => exact eval_stepTree σ top k t conj fun y => ih _
  | parenThen k d conj r ihd ihr =>
    have step : (Cond.tree top (.parenThen k d conj r)).formula.eval σ =
        stepValue (top.value σ) k ((d.tree none).formula.eval σ) conj fun w =>
          r.treeValue (fun t => t.formula.eval σ) (some (conj, w)) :=
      eval_stepTree σ top k (d.tree none) conj fun y => ihr (some (conj, y))
    rw [step, ihd]
    rfl

end Tree

/-! Values depend on the terms only, and those can be chosen freely. -/

def Cond.terms : Cond α → List α
  | .term _ t => [t]
  | .paren _ d => d.terms
  | .termThen _ t _ r => [t] ++ r.terms
  | .parenThen _ d _ r => d.terms ++ r.terms

theorem Cond.operand_mem_items {c : Cond DptNode} {t : DptNode} (h : t ∈ c.terms) :
    .operand t ∈ c.items := by
  induction c with
  | term k t' => simpa [Cond.items, Cond.terms] using h
  | paren k d ih => simp [Cond.items, ih h]
  | termThen k t' conj r ih =>
    rcases mem_append.mp h with h | h
    · simp [Cond.items, mem_singleton.mp h]
    · simp [Cond.items, ih h]
  | parenThen k d conj r ihd ihr =>
    rcases mem_append.mp h with h | h
    · simp [Cond.items, ihd h]
    · simp [Cond.items, ihr h]

theorem Cond.itemLeaves_items (c : Cond DptNode) :
    itemLeaves c.items = c.terms.flatMap fun t => t.formula.leaves := by
  have nots : ∀ k, itemLeaves (List.replicate k (.op .not)) = [] := by
    simp [itemLeaves, Item.leaves]
  simp only [itemLeaves] at nots ⊢
  induction c with
  | term k t => simp [Cond.items, Cond.terms, nots, Item.leaves]
  | paren k d ih => simp [Cond.items, Cond.terms, nots, Item.leaves, ih]
  | termThen k t conj r ih => simp [Cond.items, Cond.terms, nots, Item.leaves, ih]
  | parenThen k d conj r ihd ihr => simp [Cond.items, Cond.terms, nots, Item.leaves, ihd, ihr]

section Congr

variable {c : Cond α} {v w : α → Bool}

theorem Cond.valueFrom_congr (h : ∀ t ∈ c.terms, v t = w t) (sofar : Bool) :
    c.valueFrom v sofar = c.valueFrom w sofar := by
  induction c generalizing sofar with
  | term k t => simp [Cond.valueFrom, h t (by simp [Cond.terms])]
  | paren k d ih => simp [Cond.valueFrom, ih h]
  | termThen k t conj r ih =>
    obtain ⟨own, tail⟩ := forall_mem_append.mp h
    cases conj <;> simp [Cond.valueFrom, own t (by simp), ih tail]
  | parenThen k d conj r ihd ihr =>
    obtain ⟨own, tail⟩ := forall_mem_append.mp h
    cases conj <;> simp [Cond.valueFrom, ihd own, ihr tail]

theorem Cond.treeValue_congr (h : ∀ t ∈ c.terms, v t = w t) (top : Option (Bool × Bool)) :
    c.treeValue v top = c.treeValue w top := by
  induction c generalizing top with
  | term k t => simp [Cond.treeValue, h t (by simp [Cond.terms])]
  | paren k d ih => simp [Cond.treeValue, ih h]
  | termThen k t conj r ih =>
    obtain ⟨own, tail⟩ := forall_mem_append.mp h
    simp [Cond.treeValue, own t (by simp), ih tail]
  | parenThen k d conj r ihd ihr =>
    obtain ⟨own, tail⟩ := forall_mem_append.mp h
    simp [Cond.treeValue, ihd own, ihr tail]

end Congr

/-! An operand before an operator. -/

section Step

variable {k : Nat} {x d : Bool} {conj : Bool} {rest : Bool → Bool}

theorem stepValue_none :
    stepValue none k x conj rest = (rest (x ^^ decide (0 < k)) ^^ (k - 1).bodd) := by
  cases k with
  | zero => simp [stepValue]
  | succ k => simp [stepValue, lastValue, notTimes_eq]

theorem stepValue_notsOk (hk : notsOk k = true) :
    stepValue none k x conj rest = rest (notTimes k x) := by
  rw [notsOk_iff] at hk
  rw [stepValue_none, hk, Bool.xor_false, notTimes_eq]
  cases k with
  | zero => rfl
  | succ k =>
    rw [Nat.add_sub_cancel] at hk
    simp [hk]

theorem stepValue_not_notsOk (hk : notsOk k ≠ true) : stepValue none k x conj rest = !rest !x := by
  rw [Ne, notsOk_iff, Bool.not_eq_false] at hk
  rw [stepValue_none, hk]
  cases k with
  | zero => cases hk
  | succ k => simp

theorem stepValue_top (unmerged : (d && (k == 0 && !conj)) = false) (w : Bool) :
    stepValue (some (d, w)) k x conj rest = gateOp d (stepValue none k x conj rest) w := by
  cases k with
  | zero =>
    have : (d && !conj) = false := by simpa using unmerged
    simp [stepValue, this]
  | succ k => rfl

end Step

variable {c : Cond α}

theorem Cond.treeValue_top {d : Bool} (unmerged : (d && c.bareOr) = false) (v : α → Bool)
    (w : Bool) : c.treeValue v (some (d, w)) = gateOp d (c.treeValue v none) w := by
  cases c with
  | term k t => rfl
  | paren k d => rfl
  | termThen k t conj r => exact stepValue_top unmerged w
  | parenThen k d conj r => exact stepValue_top unmerged w

theorem Cond.treeValue_or (c : Cond α) (v : α → Bool) (w : Bool) :
    c.treeValue v (some (false, w)) = (c.treeValue v none || w) := Cond.treeValue_top rfl v w

theorem Cond.treeValue_neutral (c : Cond α) (v : α → Bool) (d : Bool) :
    c.treeValue v (some (d, d)) = c.treeValue v none := by
  have step : ∀ {k : Nat} {x conj : Bool} {rest : Bool → Bool},
      stepValue (some (d, d)) k x conj rest = stepValue none k x conj rest := by
    intro k x conj rest
    cases k with
    | zero => cases d <;> cases conj <;> simp [stepValue, gateOp]
    | succ k => simp [stepValue, lastValue]
  cases c with
  | term k t => simp [Cond.treeValue, lastValue]
  | paren k d => simp [Cond.treeValue, lastValue]
  | termThen k t conj r => exact step
  | parenThen k d conj r => exact step

def textStep (conj : Bool) (rest : Bool → Bool) (sofar : Bool) : Bool :=
  if conj then rest sofar else sofar || rest true

/-- The condition `c` is an operand with `k` negations, of value `x` in the tree
and `y` in the text, and the operator `conj` before `r`. -/
structure Begins (c : Cond α) (k : Nat) (x y : (α → Bool) → Bool) (conj : Bool) (r : Cond α) :
    Prop where
  tree : ∀ v top, c.treeValue v top =
    stepValue top k (x v) conj fun w => r.treeValue v (some (conj, w))
  text : ∀ v sofar, c.valueFrom v sofar =
    textStep conj (r.valueFrom v) (sofar && notTimes k (y v))
  hasOr : c.hasOr = (!conj || r.hasOr)
  bareOr : c.bareOr = (k == 0 && !conj)

theorem begins_termThen (k : Nat) (t : α) (conj : Bool) (r : Cond α) :
    Begins (.termThen k t conj r) k (fun v => v t) (fun v => v t) conj r :=
  ⟨fun _ _ => rfl, fun _ _ => by cases conj <;> rfl, rfl, rfl⟩

theorem begins_parenThen (k : Nat) (d : Cond α) (conj : Bool) (r : Cond α) :
    Begins (.parenThen k d conj r) k (fun v => d.treeValue v none) d.value conj r :=
  ⟨fun _ _ => rfl, fun _ _ => by cases conj <;> rfl, rfl, rfl⟩

theorem Cond.valueFrom_mono (c : Cond α) (v : α → Bool) (h : c.valueFrom v false = true)
    (sofar : Bool) : c.valueFrom v sofar = true := by
  have step : ∀ {conj y : Bool} {r : Cond α},
      (r.valueFrom v false = true → ∀ sofar, r.valueFrom v sofar = true) →
      textStep conj (r.valueFrom v) (false && y) = true →
      ∀ sofar, textStep conj (r.valueFrom v) (sofar && y) = true := by
    intro conj y r ih h sofar
    cases conj with
    | true => exact ih h _
    | false => simp_all [textStep]
  induction c generalizing sofar with
  | term k t => simp [Cond.valueFrom] at h
  | paren k d ih => simp [Cond.valueFrom] at h
  | termThen k t conj r ih =>
    rw [(begins_termThen k t conj r).text] at h ⊢
    exact step ih h sofar
  | parenThen k d conj r ihd ihr =>
    rw [(begins_parenThen k d conj r).text] at h ⊢
    exact step ihr h sofar

theorem Cond.valueFrom_of_not_hasOr (v : α → Bool) (h : c.hasOr = false) (sofar : Bool) :
    c.valueFrom v sofar = (sofar && c.value v) := by
  have step : ∀ {conj y : Bool} {r : Cond α}, (!conj || r.hasOr) = false →
      (r.hasOr = false → ∀ sofar, r.valueFrom v sofar = (sofar && r.value v)) →
      ∀ sofar, textStep conj (r.valueFrom v) (sofar && y) =
        (sofar && textStep conj (r.valueFrom v) (true && y)) := by
    intro conj y r h ih sofar
    simp only [Bool.or_eq_false_iff, Bool.not_eq_false'] at h
    obtain ⟨rfl, none_⟩ := h
    simp [textStep, ih none_, Bool.and_assoc]
  induction c generalizing sofar with
  | term k t => simp [Cond.value, Cond.valueFrom]
  | paren k d ih => simp [Cond.value, Cond.valueFrom]
  | termThen k t conj r ih =>
    simp only [Cond.value, (begins_termThen k t conj r).text]
    exact step h ih sofar
  | parenThen k d conj r ihd ihr =>
    simp only [Cond.value, (begins_parenThen k d conj r).text]
    exact step h ihr sofar

/-! A condition of that form is read as it is written. -/

section ReadRight

variable {v : α → Bool} {c r : Cond α} {k : Nat} {x y : (α → Bool) → Bool} {conj : Bool}

/-- A condition is read right on its own, and also behind a pending `&&` as
long as no later `||` would have to close that conjunction. -/
def ReadRight (v : α → Bool) (c : Cond α) : Prop :=
  c.treeValue v none = c.value v ∧
  ((c.hasOr = true → c.bareOr = true) → ∀ w, c.treeValue v (some (true, w)) = c.valueFrom v w)

theorem Begins.readRight (begins : Begins c k x y conj r) (same : x v = y v)
    (hk : notsOk k = true) (group : conj = true → r.hasOr = true → r.bareOr = true)
    (hr : ReadRight v r) : ReadRight v c := by
  have alone : c.treeValue v none = c.value v := by
    rw [Cond.value, begins.tree, begins.text, stepValue_notsOk hk, same]
    cases conj with
    | true => exact hr.2 (group rfl) _
    | false =>
      rw [Cond.treeValue_or, hr.1]
      exact Bool.or_comm _ _
  refine ⟨alone, fun below w => ?_⟩
  cases conj with
  | true =>
    have bare : c.bareOr = false := by simp [begins.bareOr]
    have noOr : c.hasOr = false := by
      by_contra h
      rw [below (by simpa using h)] at bare
      cases bare
    rw [Cond.valueFrom_of_not_hasOr v noOr, ← alone, Cond.treeValue_top (by simp [bare])]
    exact Bool.and_comm _ _
  | false =>
    have bare := below (by simp [begins.hasOr])
    obtain rfl : k = 0 := by simpa [begins.bareOr] using bare
    rw [begins.tree, begins.text]
    simp only [stepValue, Bool.not_false, Bool.and_self, if_true, Cond.treeValue_or, hr.1,
      same, notTimes, textStep, Bool.false_eq_true, if_false, Bool.and_comm w]
    exact Bool.or_comm _ _

theorem Cond.readRight (nots : c.NotsOk) (groups : c.GroupsOk) : ReadRight v c := by
  induction c with
  | term k t => exact ⟨by simp [Cond.treeValue, lastValue, Cond.value, Cond.valueFrom],
      fun _ w => Bool.and_comm _ _⟩
  | paren k d ih =>
    have inner := (ih nots groups).1
    refine ⟨?_, fun _ w => ?_⟩
    · simpa [Cond.treeValue, lastValue, Cond.value, Cond.valueFrom] using congrArg
        (notTimes k) inner
    · simp only [Cond.treeValue, lastValue, inner, Cond.valueFrom]
      exact Bool.and_comm _ _
  | termThen k t conj r ih =>
    exact (begins_termThen k t conj r).readRight rfl nots.1 groups.1 (ih nots.2 groups.2)
  | parenThen k d conj r ihd ihr =>
    exact (begins_parenThen k d conj r).readRight (ihd nots.2.1 groups.2.1).1 nots.1 groups.1
      (ihr nots.2.2 groups.2.2)

end ReadRight

/-! And no other one is: its terms take values that tell the two apart. -/

section Free

variable {X : List α} {c r : Cond α} {k : Nat} {x y : (α → Bool) → Bool} {conj : Bool}

/-- The values of an operand depend on the terms `X` and take both truth values. -/
structure Operand (X : List α) (x y : (α → Bool) → Bool) : Prop where
  congr : ∀ v w, (∀ t ∈ X, v t = w t) → x v = x w ∧ y v = y w
  tree : ∀ b, ∃ v, x v = b
  text : ∀ b, ∃ v, y v = b

/-- Values that a condition takes. -/
structure Free (c : Cond α) : Prop where
  tree : ∀ b, ∃ v, c.treeValue v none = b
  text : ∀ b, ∃ v, c.value v = b
  closed : c.hasOr = true → ∃ v, c.valueFrom v false = true
  bare : c.bareOr = true → ∀ b, ∃ v, c.treeValue v none = true ∧ c.valueFrom v false = b
  bareTree : c.bareOr = true →
    ∃ v, c.treeValue v none = true ∧ c.treeValue v (some (true, false)) = false

theorem operand_term (t : α) : Operand [t] (fun v => v t) (fun v => v t) where
  congr _ _ h := ⟨h t mem_cons_self, h t mem_cons_self⟩
  tree b := ⟨fun _ => b, rfl⟩
  text b := ⟨fun _ => b, rfl⟩

theorem Free.operand {d : Cond α} (h : Free d) :
    Operand d.terms (fun v => d.treeValue v none) d.value where
  congr _ _ h := ⟨Cond.treeValue_congr h none, Cond.valueFrom_congr h true⟩
  tree := h.tree
  text := h.text

variable [DecidableEq α]

theorem Operand.both (op : Operand X x y) (apart : ∀ t ∈ r.terms, t ∉ X) (v₁ v₂ : α → Bool) :
    ∃ v, x v = x v₁ ∧ y v = y v₁ ∧ (∀ top, r.treeValue v top = r.treeValue v₂ top) ∧
      ∀ sofar, r.valueFrom v sofar = r.valueFrom v₂ sofar := by
  obtain ⟨tree, text⟩ := op.congr _ _ (join_of_mem (fun _ => id) v₁ v₂)
  have rest := join_of_notMem apart v₁ v₂
  exact ⟨join X v₁ v₂, tree, text, Cond.treeValue_congr rest, Cond.valueFrom_congr rest⟩

theorem Begins.free (begins : Begins c k x y conj r) (op : Operand X x y)
    (apart : ∀ t ∈ r.terms, t ∉ X) (hr : Free r) : Free c where
  tree b := by
    obtain ⟨v₁, hx⟩ := op.tree (conj ^^ decide (0 < k))
    obtain ⟨v₂, hb⟩ := hr.tree (b ^^ (k - 1).bodd)
    obtain ⟨v, x_eq, -, tree, -⟩ := op.both apart v₁ v₂
    refine ⟨v, ?_⟩
    rw [begins.tree, stepValue_none, x_eq, hx, Bool.xor_assoc, Bool.xor_self, Bool.xor_false,
      Cond.treeValue_neutral, tree, hb, Bool.xor_assoc, Bool.xor_self, Bool.xor_false]
  text b := by
    obtain ⟨v₁, hy⟩ := op.text (conj ^^ k.bodd)
    obtain ⟨v₂, hb⟩ := hr.text b
    obtain ⟨v, -, y_eq, -, text⟩ := op.both apart v₁ v₂
    refine ⟨v, ?_⟩
    rw [Cond.value, begins.text, notTimes_eq, y_eq, hy, Bool.xor_assoc, Bool.xor_self, ← hb,
      Cond.value, ← text]
    cases conj <;> rfl
  closed hor := by
    cases conj with
    | true =>
      obtain ⟨v, hv⟩ := hr.closed (by simpa [begins.hasOr] using hor)
      exact ⟨v, by rw [begins.text]; exact hv⟩
    | false =>
      obtain ⟨v, hv⟩ := hr.text true
      exact ⟨v, by rw [begins.text]; exact hv⟩
  bare bareOr b := by
    obtain ⟨rfl, rfl⟩ : k = 0 ∧ conj = false := by simpa [begins.bareOr] using bareOr
    obtain ⟨v₁, hx⟩ := op.tree true
    obtain ⟨v₂, hb⟩ := hr.text b
    obtain ⟨v, x_eq, -, -, text⟩ := op.both apart v₁ v₂
    refine ⟨v, ?_, ?_⟩
    · rw [begins.tree, stepValue, Cond.treeValue_or, x_eq, hx]
      exact Bool.or_true _
    · rw [begins.text, ← hb, Cond.value, ← text]
      rfl
  bareTree bareOr := by
    obtain ⟨rfl, rfl⟩ : k = 0 ∧ conj = false := by simpa [begins.bareOr] using bareOr
    obtain ⟨v₁, hx⟩ := op.tree true
    obtain ⟨v₂, hb⟩ := hr.tree false
    obtain ⟨v, x_eq, -, tree, -⟩ := op.both apart v₁ v₂
    refine ⟨v, ?_, ?_⟩
    · rw [begins.tree, stepValue, Cond.treeValue_or, x_eq, hx]
      exact Bool.or_true _
    · simp only [begins.tree, stepValue, Bool.not_false, Bool.and_self, if_true, Bool.and_false,
        Cond.treeValue_neutral, tree, hb]

omit [DecidableEq α] in
theorem apart_of_nodup {X R : List α} (h : (X ++ R).Nodup) : ∀ a ∈ R, a ∉ X :=
  fun a ha hx => (nodup_append.mp h).2.2 a hx a ha rfl

theorem Cond.free (distinct : c.terms.Nodup) : Free c := by
  induction c with
  | term k t =>
    have tree : ∀ b, ∃ v : α → Bool, notTimes k (v t) = b := fun b =>
      ⟨fun _ => b ^^ k.bodd, by simp [notTimes_eq]⟩
    exact ⟨tree, by simpa [Cond.value, Cond.valueFrom] using tree, nofun, nofun, nofun⟩
  | paren k d ih =>
    have inner := ih distinct
    refine ⟨fun b => ?_, fun b => ?_, nofun, nofun, nofun⟩
    · obtain ⟨v, hv⟩ := inner.tree (b ^^ k.bodd)
      exact ⟨v, by simp [Cond.treeValue, lastValue, hv, notTimes_eq]⟩
    · obtain ⟨v, hv⟩ := inner.text (b ^^ k.bodd)
      rw [Cond.value] at hv
      exact ⟨v, by simp [Cond.value, Cond.valueFrom, hv, notTimes_eq]⟩
  | termThen k t conj r ih =>
    exact (begins_termThen k t conj r).free (operand_term t) (apart_of_nodup distinct)
      (ih (nodup_append.mp distinct).2.1)
  | parenThen k d conj r ihd ihr =>
    obtain ⟨hd, hr, -⟩ := nodup_append.mp distinct
    exact (begins_parenThen k d conj r).free (ihd hd).operand (apart_of_nodup distinct) (ihr hr)

end Free

section Agree

variable {V : Type} {k : Nat} {x y : V → Bool} {conj : Bool} {F G : Bool → V → Bool}
  (agree : ∀ v₁ v₂, stepValue none k (x v₁) conj (fun w => F w v₂) = G (notTimes k (y v₁)) v₂)
  (onto : ∀ b, ∃ v, x v = b)

include agree onto

theorem notsOk_of_agree (constant : ∃ v b, ∀ s, G s v = F b v) : notsOk k = true := by
  by_contra bad
  obtain ⟨v₂, b, same⟩ := constant
  obtain ⟨v₁, hx⟩ := onto (!b)
  have clash := agree v₁ v₂
  rw [stepValue_not_notsOk bad, hx, Bool.not_not, same] at clash
  exact Bool.not_ne_self _ clash

theorem parts_agree (hk : notsOk k = true) (apart : ∃ v, F conj v ≠ G (!conj) v)
    (decides : ∃ v, F conj v ≠ F (!conj) v) :
    (∀ v, x v = y v) ∧ ∀ v, F conj v = G conj v := by
  have agree' : ∀ v₁ v₂, F (notTimes k (x v₁)) v₂ = G (notTimes k (y v₁)) v₂ := by
    intro v₁ v₂
    rw [← agree, stepValue_notsOk hk]
  have neutral : ∀ v, notTimes k (x v) = conj → notTimes k (y v) = conj := by
    intro v hx
    by_contra hy
    obtain ⟨v₂, ne⟩ := apart
    apply ne
    rw [← Bool.eq_not.mpr hy, ← agree', hx]
  have rest : ∀ v, F conj v = G conj v := by
    intro v₂
    obtain ⟨v₁, hx⟩ := onto (conj ^^ k.bodd)
    have hx' : notTimes k (x v₁) = conj := by simp [hx, notTimes_eq]
    rw [← hx', agree', neutral v₁ hx', hx']
  refine ⟨fun v => ?_, rest⟩
  have same : notTimes k (x v) = notTimes k (y v) := by
    by_cases hx : notTimes k (x v) = conj
    · rw [neutral v hx, hx]
    · rw [Bool.eq_not.mpr hx]
      refine (Bool.eq_not.mpr fun hy => ?_).symm
      obtain ⟨v₂, ne⟩ := decides
      apply ne
      rw [rest, ← Bool.eq_not.mpr hx, agree', hy]
  simpa [notTimes_eq] using same

end Agree

section Step

variable [DecidableEq α] {X : List α} {c r : Cond α} {k : Nat} {x y : (α → Bool) → Bool}
  {conj : Bool}

theorem Begins.agree (begins : Begins c k x y conj r) (op : Operand X x y)
    (apart : ∀ t ∈ r.terms, t ∉ X) (same : ∀ v, c.treeValue v none = c.value v)
    (v₁ v₂ : α → Bool) :
    stepValue none k (x v₁) conj (fun w => r.treeValue v₂ (some (conj, w))) =
      textStep conj (fun s => r.valueFrom v₂ s) (notTimes k (y v₁)) := by
  obtain ⟨v, x_eq, y_eq, tree, text⟩ := op.both apart v₁ v₂
  have whole := same v
  rw [Cond.value, begins.tree, begins.text, Bool.true_and, x_eq, y_eq] at whole
  simpa only [tree, text] using whole

/-- A condition that is read as it is written begins with an operand that is,
and so does what follows it. -/
theorem Begins.split (begins : Begins c k x y conj r) (op : Operand X x y)
    (apart : ∀ t ∈ r.terms, t ∉ X) (hr : Free r) (same : ∀ v, c.treeValue v none = c.value v) :
    notsOk k = true ∧ (conj = true → r.hasOr = true → r.bareOr = true) ∧
      (∀ v, x v = y v) ∧ ∀ v, r.treeValue v none = r.value v := by
  have agree := begins.agree op apart same
  have parts := parts_agree (F := fun w v => r.treeValue v (some (conj, w)))
    (G := fun s v => textStep conj (fun s => r.valueFrom v s) s) agree op.tree
  have hk : notsOk k = true := by
    refine notsOk_of_agree (F := fun w v => r.treeValue v (some (conj, w)))
      (G := fun s v => textStep conj (fun s => r.valueFrom v s) s) agree op.tree ?_
    cases conj with
    | false =>
      obtain ⟨v, hv⟩ := hr.text true
      rw [Cond.value] at hv
      exact ⟨v, true, fun s => by simp [textStep, hv, Cond.treeValue_or]⟩
    | true =>
      by_cases bare : r.bareOr = true
      · obtain ⟨v, tree, text⟩ := hr.bare bare true
        refine ⟨v, true, fun s => ?_⟩
        rw [Cond.treeValue_neutral, tree]
        exact r.valueFrom_mono v text s
      · obtain ⟨v, hv⟩ := hr.text false
        have low : ∀ s, r.valueFrom v s = false := by
          intro s
          cases s with
          | true => exact hv
          | false =>
            by_contra high
            rw [Cond.value, r.valueFrom_mono v (by simpa using high)] at hv
            cases hv
        refine ⟨v, false, fun s => ?_⟩
        rw [Cond.treeValue_top (by simpa using bare)]
        exact (low s).trans (Bool.and_false _).symm
  have group : conj = true → r.hasOr = true → r.bareOr = true := by
    rintro rfl hor
    by_contra bare
    obtain ⟨v₁, hx⟩ := op.tree k.bodd
    obtain ⟨v₂, hv⟩ := hr.closed hor
    have clash := agree v₁ v₂
    rw [stepValue_notsOk hk, Cond.treeValue_top (by simpa using bare), hx, notTimes_eq] at clash
    simp [gateOp, textStep, r.valueFrom_mono v₂ hv] at clash
  have apart' : ∃ v, r.treeValue v (some (conj, conj)) ≠
      textStep conj (fun s => r.valueFrom v s) (!conj) := by
    cases conj with
    | false =>
      obtain ⟨v, hv⟩ := hr.tree false
      exact ⟨v, by simp [textStep, Cond.treeValue_neutral, hv]⟩
    | true =>
      by_cases bare : r.bareOr = true
      · obtain ⟨v, tree, text⟩ := hr.bare bare false
        exact ⟨v, by simp [textStep, Cond.treeValue_neutral, tree, text]⟩
      · obtain ⟨v, hv⟩ := hr.tree true
        have noOr : r.hasOr = false := by
          by_contra hor
          exact bare (group rfl (by simpa using hor))
        exact ⟨v,
          by simp [textStep, Cond.treeValue_neutral, hv, Cond.valueFrom_of_not_hasOr v noOr]⟩
  have decides : ∃ v, r.treeValue v (some (conj, conj)) ≠ r.treeValue v (some (conj, !conj)) := by
    by_cases bare : (conj && r.bareOr) = true
    · obtain ⟨rfl, bareOr⟩ := Bool.and_eq_true_iff.mp bare
      obtain ⟨v, tree, dropped⟩ := hr.bareTree bareOr
      exact ⟨v, by simp [Cond.treeValue_neutral, tree, dropped]⟩
    · obtain ⟨v, hv⟩ := hr.tree conj
      refine ⟨v, ?_⟩
      rw [Cond.treeValue_neutral, Cond.treeValue_top (by simpa using bare), hv, gateOp_not_right]
      exact Bool.not_ne_self conj |>.symm
  obtain ⟨operand, rest⟩ := parts hk apart' decides
  refine ⟨hk, group, operand, fun v => ?_⟩
  have same := rest v
  rw [Cond.treeValue_neutral] at same
  rw [same]
  cases conj <;> rfl

end Step

theorem Cond.treeValue_eq_value_iff [DecidableEq α] (distinct : c.terms.Nodup) :
    (∀ v, c.treeValue v none = c.value v) ↔ c.NotsOk ∧ c.GroupsOk := by
  constructor
  · intro same
    induction c with
    | term k t => exact ⟨trivial, trivial⟩
    | paren k d ih =>
      refine ih distinct fun v => ?_
      have whole := same v
      simp only [Cond.treeValue, lastValue, Cond.value, Cond.valueFrom, Bool.true_and,
        notTimes_eq] at whole
      exact Bool.xor_left_inj.mp whole
    | termThen k t conj r ih =>
      have hr := (nodup_append.mp distinct).2.1
      obtain ⟨hk, group, -, rest⟩ := (begins_termThen k t conj r).split (operand_term t)
        (apart_of_nodup distinct) (Cond.free hr) same
      obtain ⟨nots, groups⟩ := ih hr rest
      exact ⟨⟨hk, nots⟩, group, groups⟩
    | parenThen k d conj r ihd ihr =>
      obtain ⟨hd, hr, -⟩ := nodup_append.mp distinct
      obtain ⟨hk, group, inner, rest⟩ := (begins_parenThen k d conj r).split (Cond.free hd).operand
        (apart_of_nodup distinct) (Cond.free hr) same
      obtain ⟨notsd, groupsd⟩ := ihd hd inner
      obtain ⟨notsr, groupsr⟩ := ihr hr rest
      exact ⟨⟨hk, notsd, notsr⟩, group, groupsd, groupsr⟩
  · rintro ⟨nots, groups⟩ v
    exact (Cond.readRight nots groups).1

section Plain

variable {top : Pending} {c : Cond DptNode}

theorem plain_lastTree (htop : ∀ q ∈ top, q.2.Plain) (k : Nat) {x : DptNode} (hx : x.Plain) :
    (lastTree top k x).Plain := by
  have nots : (negTimes k x).Plain := by
    induction k with
    | zero => exact hx
    | succ k ih => exact ih
  match top with
  | none => exact nots
  | some (d, v) => exact ⟨by cases d <;> simp [opType], nots, htop _ rfl⟩

theorem plain_stepTree (htop : ∀ q ∈ top, q.2.Plain) (k : Nat) {x : DptNode} (hx : x.Plain)
    (c : Bool) {rest : Pending → DptNode}
    (hrest : ∀ top : Pending, (∀ q ∈ top, q.2.Plain) → (rest top).Plain) :
    (stepTree top k x c rest).Plain := by
  have one : ∀ y : DptNode, y.Plain → (rest (some (c, y))).Plain := by
    intro y hy
    refine hrest _ ?_
    rintro q ⟨⟩
    exact hy
  match k, top with
  | 0, none => exact one x hx
  | 0, some (d, v) =>
    simp only [stepTree]
    split
    · exact one _ ⟨Or.inl rfl, hx, htop _ rfl⟩
    · exact ⟨by cases d <;> simp [opType], one x hx, htop _ rfl⟩
  | k + 1, top => exact plain_lastTree htop k (one (.not x) hx)

theorem Cond.plain_tree (h : ∀ t ∈ c.terms, t.Plain) (htop : ∀ q ∈ top, q.2.Plain) :
    (c.tree top).Plain := by
  induction c generalizing top with
  | term k t => exact plain_lastTree htop k (h t (by simp [Cond.terms]))
  | paren k d ih => exact plain_lastTree htop k (ih h (by simp))
  | termThen k t conj r ih =>
    obtain ⟨own, rest⟩ := forall_mem_append.mp h
    exact plain_stepTree htop k (own t (by simp)) conj fun top htop => ih rest htop
  | parenThen k d conj r ihd ihr =>
    obtain ⟨own, rest⟩ := forall_mem_append.mp h
    exact plain_stepTree htop k (ihd own (by simp)) conj fun top htop => ihr rest htop

end Plain

theorem terms_nodup {ts : List DptNode} (h : (ts.flatMap fun t => t.formula.leaves).Nodup) :
    ts.Nodup := by
  refine (nodup_flatMap.mp h).2.imp ?_
  rintro t t' disjoint rfl
  obtain ⟨a, ha⟩ := t.formula.exists_mem_leaves
  exact disjoint ha ha

/-- For a condition that `parseDepCond` accepts, the tree has the value of the
text under every assignment to its terms exactly when each operand before an
operator bears no `!` or an odd number of them, and each `&&` that has an `||`
after it in its parentheses is followed by one operand without `!` and then
that `||`. -/
theorem parseDepCond_precedence_iff {env : DepEnv} {lsfUserName : String} {windowConf : Bool}
    {pastTable : Int} {fuel : Nat} {s : List Char} {root : DptNode} {c : Cond DptNode}
    (accepted : parseDepCond env lsfUserName windowConf pastTable fuel s = .ok root)
    (written : readItems env lsfUserName windowConf fuel Locals.init s = .ok c.items) :
    (∀ σ : Nat → Bool, evalDepCond (assign σ) root =
      .ofBool (c.value fun t => decide (evalDepCond (assign σ) t = .dpTrue))) ↔
    c.NotsOk ∧ c.GroupsOk := by
  obtain ⟨nodup, -, plain⟩ := readItems_numbered written
  rw [Cond.itemLeaves_items] at nodup
  have plain : ∀ t ∈ c.terms, t.Plain := fun t ht => plain t (Cond.operand_mem_items ht)
  have tree : ∀ σ, evalDepCond (assign σ) root =
      .ofBool (c.treeValue (fun t => t.formula.eval σ) none) := by
    intro σ
    rw [parseDepCond_tree accepted written, evalDepCond_formula (Cond.plain_tree plain (by simp)),
      Cond.eval_tree]
    rfl
  have text : ∀ σ, (c.value fun t => decide (evalDepCond (assign σ) t = .dpTrue)) =
      c.value fun t => t.formula.eval σ := by
    intro σ
    refine Cond.valueFrom_congr (fun t ht => ?_) true
    rw [evalDepCond_formula (plain t ht)]
    cases t.formula.eval σ <;> rfl
  have inj : ∀ {x y : Bool}, DpValue.ofBool x = .ofBool y ↔ x = y := by decide
  simp only [tree, text, inj]
  rw [← Cond.treeValue_eq_value_iff (terms_nodup nodup)]
  constructor
  · intro same v
    obtain ⟨σ, hσ⟩ := attains_all nodup v
    rw [← Cond.treeValue_congr hσ, same, Cond.value, Cond.valueFrom_congr hσ]
    rfl
  · intro same σ
    exact same _

def doneNode (id : Nat) : DptNode :=
  .term id (.job .done .and 0 false (some (plainNode 1 "a" 5).job) none)

def oneJobEnv : DepEnv := plainEnv false [plainNode 1 "a" 5]

/-- `a && b || c`, as it is written. -/
def andOr : Cond DptNode :=
  .termThen 0 (doneNode 0) true (.termThen 0 (doneNode 1) false (.term 0 (doneNode 2)))

theorem parseDepCond_and_or :
    ∃ root, parseDepCond oneJobEnv "amy" false 0 8 "a && b || c".toList = .ok root ∧
      ∀ σ : Nat → Bool, evalDepCond (assign σ) root =
        .ofBool (andOr.value fun t => decide (evalDepCond (assign σ) t = .dpTrue)) := by
  have accepted : parseDepCond oneJobEnv "amy" false 0 8 "a && b || c".toList =
      .ok (.binary .or (doneNode 2) (.binary .and (doneNode 1) (doneNode 0))) := by decide
  have written : readItems oneJobEnv "amy" false 8 Locals.init "a && b || c".toList =
      .ok andOr.items := by decide
  refine ⟨_, accepted, (parseDepCond_precedence_iff accepted written).mpr ⟨?_, ?_⟩⟩
  · simp [andOr, Cond.NotsOk, notsOk]
  · simp [andOr, Cond.GroupsOk, Cond.hasOr, Cond.bareOr]

/-- `a && b && c || d`, as it is written. -/
def andAndOr : Cond DptNode :=
  .termThen 0 (doneNode 0) true (.termThen 0 (doneNode 1) true
    (.termThen 0 (doneNode 2) false (.term 0 (doneNode 3))))

/-- `a && b && c || d` becomes `a && (b && c || d)`, which is FALSE where only
`d` is TRUE. -/
theorem parseDepCond_and_and_or :
    ∃ root, parseDepCond oneJobEnv "amy" false 0 10 "a && b && c || d".toList = .ok root ∧
      readItems oneJobEnv "amy" false 10 Locals.init "a && b && c || d".toList =
        .ok andAndOr.items ∧
      evalDepCond (assign fun id => id == 3) root = .dpFalse ∧
      (andAndOr.value fun t => decide (evalDepCond (assign fun id => id == 3) t = .dpTrue)) =
        true := by
  refine ⟨.binary .and (.binary .or (doneNode 3) (.binary .and (doneNode 2) (doneNode 1)))
    (doneNode 0), ?_⟩
  decide

end Jhlava.Dep
