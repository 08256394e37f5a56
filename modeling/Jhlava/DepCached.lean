import Jhlava.DepEval

/-! What the values kept in the nodes of a condition do to its result, and the laws of its
operators. -/
namespace Jhlava.DepEval
open Dep List Option

section Results

variable {st : EvalState} {depJob : Option Depending}

def notValue : DpValue → DpValue
  | .dpReject => .dpReject
  | .dpFalse | .dpInvalid => .dpTrue
  | .dpTrue => .dpFalse

/-- What `||` makes of its operands; the second one may not be needed. -/
def orResult (left right : Option DpValue) : Option DpValue :=
  left.bind fun
    | .dpReject => some .dpReject
    | .dpTrue => some .dpTrue
    | .dpFalse => right.map fun
        | .dpReject => .dpReject
        | .dpTrue => .dpTrue
        | .dpFalse | .dpInvalid => .dpFalse
    | .dpInvalid => right

def andResult (left right : Option DpValue) : Option DpValue :=
  left.bind fun
    | .dpInvalid => some .dpInvalid
    | .dpReject => some .dpReject
    | .dpFalse => right.map fun
        | .dpInvalid => .dpInvalid
        | .dpReject => .dpReject
        | .dpFalse | .dpTrue => .dpFalse
    | .dpTrue => right

section

variable (value : DpValue)
include value

theorem result_not (left : EvalNode) :
    result st depJob (.not value left) = (result st depJob left).map notValue := by
  rw [result, result, evalDepCond]
  cases evalDepCond st depJob left with
  | none => rfl
  | some left => cases h : left.value <;> simp [h, notValue]

theorem result_or (left right : EvalNode) :
    result st depJob (.binary value .or left right) =
      orResult (result st depJob left) (result st depJob right) := by
  rw [result, result, result, evalDepCond]
  cases evalDepCond st depJob left with
  | none => rfl
  | some left =>
    cases h : left.value with
    | dpReject | dpTrue => simp [h, orResult]
    | dpFalse | dpInvalid =>
      cases evalDepCond st depJob right with
      | none => simp [h, orResult]
      | some right => cases h' : right.value <;> simp [h, h', orResult]

theorem result_and (left right : EvalNode) :
    result st depJob (.binary value .and left right) =
      andResult (result st depJob left) (result st depJob right) := by
  rw [result, result, result, evalDepCond]
  cases evalDepCond st depJob left with
  | none => rfl
  | some left =>
    cases h : left.value with
    | dpReject | dpInvalid => simp [h, andResult]
    | dpFalse | dpTrue =>
      cases evalDepCond st depJob right with
      | none => simp [h, andResult]
      | some right => cases h' : right.value <;> simp [h, h', andResult]

theorem result_binary_other {type : DptType} (and_ : type ≠ .and) (or_ : type ≠ .or)
    (left right : EvalNode) : result st depJob (.binary value type left right) = some value := by
  rw [result, evalDepCond]
  · rfl
  · exact or_
  · exact and_

theorem result_term (data : EvalTerm) :
    result st depJob (.term value data) = (evalTerm st depJob value data).map Prod.fst := by
  rw [result, evalDepCond, Option.map_map]
  rfl

end

/-! ### The laws of the operators -/

def EvalNode.leaves : EvalNode → List EvalNode
  | .term value data => [.term value data]
  | .not _ left => left.leaves
  | .binary _ .and left right | .binary _ .or left right => left.leaves ++ right.leaves
  | .binary value type left right => [.binary value type left right]

def Definite (value : Option DpValue) : Prop :=
  value = some .dpTrue ∨ value = some .dpFalse ∨ value = some .dpInvalid

variable {node : EvalNode} {x y : Option DpValue}

theorem Definite.not (hx : Definite x) : Definite (x.map notValue) := by
  rcases hx with rfl | rfl | rfl <;> simp [Definite, notValue]

theorem Definite.or (hx : Definite x) (hy : Definite y) : Definite (orResult x y) := by
  rcases hx with rfl | rfl | rfl <;> rcases hy with rfl | rfl | rfl <;> simp [Definite, orResult]

theorem Definite.and (hx : Definite x) (hy : Definite y) : Definite (andResult x y) := by
  rcases hx with rfl | rfl | rfl <;> rcases hy with rfl | rfl | rfl <;> simp [Definite, andResult]

def TermsDefinite (st : EvalState) (depJob : Option Depending) (node : EvalNode) : Prop :=
  ∀ leaf ∈ node.leaves, Definite (result st depJob leaf)

theorem TermsDefinite.term {value : DpValue} {data : EvalTerm}
    (definite : Definite (DepEval.result st depJob (.term value data))) :
    TermsDefinite st depJob (.term value data) := by
  intro leaf mem
  rw [mem_singleton.mp mem]
  exact definite

theorem TermsDefinite.result (definite : TermsDefinite st depJob node) :
    Definite (DepEval.result st depJob node) := by
  induction node with
  | term value data => exact definite _ (mem_singleton_self _)
  | not value left ih =>
    rw [result_not]
    exact (ih definite).not
  | binary value type left right ihl ihr =>
    by_cases and_ : type = .and
    · subst and_
      obtain ⟨hl, hr⟩ := forall_mem_append.mp definite
      rw [result_and]
      exact (ihl hl).and (ihr hr)
    · by_cases or_ : type = .or
      · subst or_
        obtain ⟨hl, hr⟩ := forall_mem_append.mp definite
        rw [result_or]
        exact (ihl hl).or (ihr hr)
      · have leaves : (EvalNode.binary value type left right).leaves =
            [.binary value type left right] := by
          rw [EvalNode.leaves]
          · exact and_
          · exact or_
        exact definite _ (leaves ▸ mem_singleton_self _)

theorem orResult_comm (hx : Definite x) (hy : Definite y) : orResult x y = orResult y x := by
  rcases hx with rfl | rfl | rfl <;> rcases hy with rfl | rfl | rfl <;> rfl

theorem andResult_comm (hx : Definite x) (hy : Definite y) : andResult x y = andResult y x := by
  rcases hx with rfl | rfl | rfl <;> rcases hy with rfl | rfl | rfl <;> rfl

theorem orResult_assoc (x y z : Option DpValue) :
    orResult (orResult x y) z = orResult x (orResult y z) := by
  rcases x with _ | _ | _ | _ | _ <;> rcases y with _ | _ | _ | _ | _ <;>
    rcases z with _ | _ | _ | _ | _ <;> rfl

theorem andResult_assoc (x y z : Option DpValue) :
    andResult (andResult x y) z = andResult x (andResult y z) := by
  rcases x with _ | _ | _ | _ | _ <;> rcases y with _ | _ | _ | _ | _ <;>
    rcases z with _ | _ | _ | _ | _ <;> rfl

/-- Where terms are true, false or invalid, the operands of an operator can be exchanged,
and of three operands either two can be taken together. -/
theorem result_operators {a b : EvalNode} (ha : TermsDefinite st depJob a)
    (hb : TermsDefinite st depJob b) (c : EvalNode) (u v w x : DpValue) :
    result st depJob (.binary u .and a b) = result st depJob (.binary v .and b a) ∧
    result st depJob (.binary u .or a b) = result st depJob (.binary v .or b a) ∧
    result st depJob (.binary u .and (.binary v .and a b) c) =
      result st depJob (.binary w .and a (.binary x .and b c)) ∧
    result st depJob (.binary u .or (.binary v .or a b) c) =
      result st depJob (.binary w .or a (.binary x .or b c)) := by
  simp only [result_and, result_or]
  exact ⟨andResult_comm ha.result hb.result, orResult_comm ha.result hb.result,
    andResult_assoc _ _ _, orResult_assoc _ _ _⟩

/-- `done("arr")` and a job that is gone. -/
theorem result_operators_oneLeft :
    result oneLeft none (.binary .dpFalse .and
        (.term .dpFalse (.job .done .and 0 false (some arrayBase) none))
        (.term .dpFalse (.job .done .and 0 false none none))) =
      result oneLeft none (.binary .dpFalse .and
        (.term .dpFalse (.job .done .and 0 false none none))
        (.term .dpFalse (.job .done .and 0 false (some arrayBase) none))) := by
  have done_ : TermsDefinite oneLeft none
      (.term .dpFalse (.job .done .and 0 false (some arrayBase) none)) :=
    TermsDefinite.term (Or.inl (by decide +kernel))
  have gone : TermsDefinite oneLeft none (.term .dpFalse (.job .done .and 0 false none none)) :=
    TermsDefinite.term (Or.inr (Or.inr rfl))
  exact (result_operators done_ gone (.term .dpFalse (.window ⟨true, fun _ => [], 0⟩))
    .dpFalse .dpFalse .dpFalse .dpFalse).1

def rank : DpValue → Nat
  | .dpTrue => 2
  | .dpFalse => 1
  | _ => 0

/-- Of `invalid < false < true`, `&&` is the least, `||` the greatest; `!` is true of the rest. -/
theorem rank_result {a b : EvalNode} (ha : TermsDefinite st depJob a)
    (hb : TermsDefinite st depJob b) (u : DpValue) :
    let r n := (result st depJob n).elim 0 rank
    r (.binary u .and a b) = min (r a) (r b) ∧ r (.binary u .or a b) = max (r a) (r b) ∧
      r (.not u a) = min 2 (3 - r a) := by
  simp only [result_and, result_or, result_not]
  rcases ha.result with ha | ha | ha <;> rcases hb.result with hb | hb | hb <;>
    rw [ha, hb] <;> decide

/-- Of a job that is done and one that is gone, `&&` makes invalid and `||` true. -/
theorem rank_result_oneLeft :
    (result oneLeft none (.binary .dpFalse .and
        (.term .dpFalse (.job .done .and 0 false (some arrayBase) none))
        (.term .dpFalse (.job .done .and 0 false none none)))).elim 0 rank = 0 ∧
      (result oneLeft none (.binary .dpFalse .or
        (.term .dpFalse (.job .done .and 0 false (some arrayBase) none))
        (.term .dpFalse (.job .done .and 0 false none none)))).elim 0 rank = 2 := by
  have done_ : result oneLeft none
      (.term .dpFalse (.job .done .and 0 false (some arrayBase) none)) = some .dpTrue := by
    decide +kernel
  have gone : result oneLeft none (.term .dpFalse (.job .done .and 0 false none none)) =
      some .dpInvalid := rfl
  have ranks := rank_result (TermsDefinite.term (Or.inl done_))
    (TermsDefinite.term (Or.inr (Or.inr gone))) .dpFalse
  simp only [done_, gone] at ranks
  exact ⟨ranks.1, ranks.2.1⟩

/-! ### The values kept -/

def EvalNode.bare : EvalNode → EvalNode
  | .term _ data => .term .dpFalse data
  | .not _ left => .not .dpFalse left.bare
  | .binary _ type left right => .binary .dpFalse type left.bare right.bare

/-- The nodes that `evalDepCond` is called for: an operand on the right only where the value on
the left does not settle the operator. -/
def reached (st : EvalState) (depJob : Option Depending) : EvalNode → List EvalNode
  | .term value data => [.term value data]
  | .not value left => .not value left :: reached st depJob left
  | .binary value .and left right =>
    .binary value .and left right :: (reached st depJob left ++
      if result st depJob left = some .dpTrue ∨ result st depJob left = some .dpFalse then
        reached st depJob right else [])
  | .binary value .or left right =>
    .binary value .or left right :: (reached st depJob left ++
      if result st depJob left = some .dpFalse ∨ result st depJob left = some .dpInvalid then
        reached st depJob right else [])
  | .binary value type left right => [.binary value type left right]

def Idle (st : EvalState) (depJob : Option Depending) : EvalNode → Prop
  | .term _ (.job _ _ _ opFlag (some jobRec) jobIdx) =>
    ∃ js, lookJobs st depJob opFlag jobRec jobIdx = .jobs js ∧
      ∀ jpbw ∈ js, skipped opFlag jobIdx jpbw = true
  | .binary _ type _ _ => type ≠ .and ∧ type ≠ .or
  | .term .. | .not .. => False

section Jobs

variable {type opType : DptType} {exitCode : Int} {skip : JobRec → Bool} {js : List JobRec}

theorem evalJobs_idle (all : ∀ jpbw ∈ js, skip jpbw = true) (value : DpValue) :
    evalJobs st depJob type opType exitCode skip value js = value := by
  induction js with
  | nil => rfl
  | cons jpbw js ih =>
    obtain ⟨here, rest⟩ := forall_mem_cons.mp all
    rw [evalJobs, if_pos here]
    exact ih rest

theorem evalJobs_settled (some_ : ¬∀ jpbw ∈ js, skip jpbw = true) (value value' : DpValue) :
    evalJobs st depJob type opType exitCode skip value js =
      evalJobs st depJob type opType exitCode skip value' js := by
  induction js with
  | nil => exact absurd (forall_mem_nil _) some_
  | cons jpbw js ih =>
    rw [evalJobs, evalJobs]
    by_cases here : skip jpbw = true
    · rw [if_pos here, if_pos here]
      exact ih fun all => some_ (forall_mem_cons.mpr ⟨here, all⟩)
    · rw [if_neg here, if_neg here]

theorem evalJobs_again (value : DpValue) :
    evalJobs st depJob type opType exitCode skip
        (evalJobs st depJob type opType exitCode skip value js) js =
      evalJobs st depJob type opType exitCode skip value js := by
  by_cases idle : ∀ jpbw ∈ js, skip jpbw = true
  · rw [evalJobs_idle idle]
  · exact evalJobs_settled idle _ _

end Jobs

theorem updateTimeWindow_again (timeW : TimeWindow) :
    (updateTimeWindow st (updateTimeWindow st timeW)).status =
      (updateTimeWindow st timeW).status := by
  by_cases later : timeW.windEdge > st.now ∨ timeW.windEdge = 0
  · have kept : updateTimeWindow st timeW = timeW := by rw [updateTimeWindow, if_pos later]
    rw [kept, kept]
  · by_cases none_ : (timeW.week st.day).isEmpty
    · have moved : updateTimeWindow st timeW = { timeW with windEdge := edgeAt st 24 } := by
        rw [updateTimeWindow, if_neg later, if_pos none_]
      rw [moved, updateTimeWindow]
      split <;> rfl
    · have checked : updateTimeWindow st timeW = { timeW with
          status := (checkWindows st (edgeAt st 24) (timeW.week st.day)).1
          windEdge := (checkWindows st (edgeAt st 24) (timeW.week st.day)).2 } := by
        rw [updateTimeWindow, if_neg later, if_neg none_]
      rw [checked, updateTimeWindow]
      split <;> rfl

theorem evalTerm_again {value value' : DpValue} {data data' : EvalTerm}
    (first : evalTerm st depJob value data = some (value', data')) :
    (evalTerm st depJob value' data').map Prod.fst = some value' := by
  cases data with
  | job type opType exitCode opFlag jobRec jobIdx =>
    cases jobRec with
    | none =>
      cases first
      rfl
    | some jpbw =>
      rw [evalTerm] at first
      cases look : lookJobs st depJob opFlag jpbw jobIdx with
      | crash =>
        rw [look] at first
        cases first
      | invalid =>
        rw [look] at first
        cases first
        simp [evalTerm, look]
      | jobs js =>
        rw [look] at first
        cases first
        simp [evalTerm, look, evalJobs_again]
  | window dptWindow =>
    cases first
    simp [evalTerm, updateTimeWindow_again]
  | jgrp type opType num dptJgrp =>
    cases dptJgrp with
    | none =>
      cases first
      rfl
    | some array =>
      rw [evalTerm] at first
      split at first
      · cases first
        rfl
      · rename_i active
        cases first
        simp [evalTerm, active]

theorem evalDepCond_again {node' : EvalNode} (first : evalDepCond st depJob node = some node') :
    result st depJob node' = some node'.value := by
  induction node generalizing node' with
  | term value data =>
    obtain ⟨⟨value', data'⟩, eval, rfl⟩ := map_eq_some_iff.mp first
    rw [result_term]
    exact evalTerm_again eval
  | not value left ih =>
    obtain ⟨left', eval, rfl⟩ := map_eq_some_iff.mp first
    rw [result_not, ih eval]
    cases left'.value <;> rfl
  | binary value type left right ihl ihr =>
    by_cases or_ : type = .or
    · subst or_
      obtain ⟨left', evalL, rest⟩ := bind_eq_some_iff.mp first
      have valueL := ihl evalL
      cases h : left'.value with
      | dpReject | dpTrue =>
        rw [h] at rest valueL
        cases rest
        rw [result_or, valueL]
        rfl
      | dpFalse | dpInvalid =>
        rw [h] at rest valueL
        obtain ⟨right', evalR, rfl⟩ := map_eq_some_iff.mp rest
        rw [result_or, valueL, ihr evalR]
        cases right'.value <;> rfl
    · by_cases and_ : type = .and
      · subst and_
        obtain ⟨left', evalL, rest⟩ := bind_eq_some_iff.mp first
        have valueL := ihl evalL
        cases h : left'.value with
        | dpReject | dpInvalid =>
          rw [h] at rest valueL
          cases rest
          rw [result_and, valueL]
          rfl
        | dpFalse | dpTrue =>
          rw [h] at rest valueL
          obtain ⟨right', evalR, rfl⟩ := map_eq_some_iff.mp rest
          rw [result_and, valueL, ihr evalR]
          cases right'.value <;> rfl
      · rw [evalDepCond] at first
        · cases first
          exact result_binary_other _ and_ or_ _ _
        · exact or_
        · exact and_

theorem evalTerm_settled {value : DpValue} {data : EvalTerm}
    (busy : ¬Idle st depJob (.term value data)) (value' : DpValue) :
    (evalTerm st depJob value' data).map Prod.fst =
      (evalTerm st depJob value data).map Prod.fst := by
  cases data with
  | job type opType exitCode opFlag jobRec jobIdx =>
    cases jobRec with
    | none => rfl
    | some jpbw =>
      cases look : lookJobs st depJob opFlag jpbw jobIdx with
      | crash | invalid => simp [evalTerm, look]
      | jobs js =>
        have some_ : ¬∀ jpbw ∈ js, skipped opFlag jobIdx jpbw = true :=
          fun all => busy ⟨js, look, all⟩
        simp only [evalTerm, look, map_some]
        rw [evalJobs_settled some_ value' value]
  | window dptWindow => rfl
  | jgrp type opType num dptJgrp =>
    cases dptJgrp with
    | none => rfl
    | some array => rfl

theorem result_idle (idle : Idle st depJob node) (value : DpValue) :
    ∃ node', node'.bare = node.bare ∧ result st depJob node' = some value := by
  cases node with
  | term value₀ data =>
    refine ⟨.term value data, rfl, ?_⟩
    cases data with
    | job type opType exitCode opFlag jobRec jobIdx =>
      cases jobRec with
      | none => cases idle
      | some jpbw =>
        obtain ⟨js, look, all⟩ := idle
        simp [result_term, evalTerm, look, evalJobs_idle all]
    | window dptWindow => cases idle
    | jgrp type opType num dptJgrp => cases idle
  | not value₀ left => cases idle
  | binary value₀ type left right =>
    exact ⟨.binary value type left right, rfl, result_binary_other _ idle.1 idle.2 _ _⟩

def ValueFree (st : EvalState) (depJob : Option Depending) (node : EvalNode) : Prop :=
  ∀ node', node'.bare = node.bare → result st depJob node' = result st depJob node

/-- A result that no cache changes; it is never `dpReject`, which only a cache can hold. -/
structure Settled (st : EvalState) (depJob : Option Depending) (node : EvalNode) : Prop where
  free : ValueFree st depJob node
  kept : result st depJob node ≠ some .dpReject

/-- Caches with which the result is `dpReject`, and such with which it is not. -/
structure Varies (st : EvalState) (depJob : Option Depending) (node : EvalNode) : Prop where
  reject : ∃ node', node'.bare = node.bare ∧ result st depJob node' = some .dpReject
  other : ∃ node', node'.bare = node.bare ∧ result st depJob node' ≠ some .dpReject

theorem Varies.not_free (varies : Varies st depJob node) : ¬ValueFree st depJob node := by
  intro free
  obtain ⟨yes, bareYes, rejected⟩ := varies.reject
  obtain ⟨no, bareNo, other⟩ := varies.other
  rw [free no bareNo, ← free yes bareYes] at other
  exact other rejected

/-- What `&&` and `||` have in common: `needs` says for which value on the left the right operand
is evaluated. -/
structure Junction (op : Option DpValue → Option DpValue → Option DpValue)
    (needs : Option DpValue → Prop) : Prop where
  short : ∀ l r r', ¬needs l → op l r' = op l r
  rejectLeft : ∀ r, op (some .dpReject) r = some .dpReject
  rejectRight : ∀ l, needs l → op l (some .dpReject) = some .dpReject
  keeps : ∀ l r, l ≠ some .dpReject → r ≠ some .dpReject → op l r ≠ some .dpReject

def andNeeds (left : Option DpValue) : Prop := left = some .dpTrue ∨ left = some .dpFalse

def orNeeds (left : Option DpValue) : Prop := left = some .dpFalse ∨ left = some .dpInvalid

instance : DecidablePred andNeeds := fun _ => inferInstanceAs (Decidable (_ ∨ _))

instance : DecidablePred orNeeds := fun _ => inferInstanceAs (Decidable (_ ∨ _))

theorem andResult_junction : Junction andResult andNeeds := by
  refine ⟨?_, fun r => rfl, ?_, ?_⟩
  · rintro (_ | _ | _ | _ | _) r r' short <;> simp_all [andNeeds, andResult]
  · rintro l (rfl | rfl) <;> rfl
  · rintro (_ | _ | _ | _ | _) (_ | _ | _ | _ | _) left right <;> simp_all [andResult]

theorem orResult_junction : Junction orResult orNeeds := by
  refine ⟨?_, fun r => rfl, ?_, ?_⟩
  · rintro (_ | _ | _ | _ | _) r r' short <;> simp_all [orNeeds, orResult]
  · rintro l (rfl | rfl) <;> rfl
  · rintro (_ | _ | _ | _ | _) (_ | _ | _ | _ | _) left right <;> simp_all [orResult]

section Junction

variable {op : Option DpValue → Option DpValue → Option DpValue} {needs : Option DpValue → Prop}
  (junction : Junction op needs) {type : DptType}
  (results : ∀ value left right, result st depJob (.binary value type left right) =
    op (result st depJob left) (result st depJob right))
  {value : DpValue} {left right : EvalNode}
include junction results

theorem Settled.binary (isLeft : Settled st depJob left)
    (isRight : needs (result st depJob left) → Settled st depJob right) :
    Settled st depJob (.binary value type left right) := by
  constructor
  · intro node' same
    cases node' with
    | term value' data' => cases same
    | not value' left' => cases same
    | binary value' type' left' right' =>
      obtain ⟨-, rfl, sameL, sameR⟩ := EvalNode.binary.inj same
      rw [results, results, isLeft.free left' sameL]
      by_cases needed : needs (result st depJob left)
      · rw [(isRight needed).free right' sameR]
      · exact junction.short _ _ _ needed
  · rw [results]
    by_cases needed : needs (result st depJob left)
    · exact junction.keeps _ _ isLeft.kept (isRight needed).kept
    · rw [junction.short _ none _ needed]
      exact junction.keeps _ _ isLeft.kept (by simp)

theorem Varies.binary_left (isLeft : Varies st depJob left)
    (isRight : ∃ node', node'.bare = right.bare ∧ result st depJob node' ≠ some .dpReject) :
    Varies st depJob (.binary value type left right) := by
  obtain ⟨yes, bareYes, rejected⟩ := isLeft.reject
  obtain ⟨no, bareNo, other⟩ := isLeft.other
  obtain ⟨right', bare, kept⟩ := isRight
  refine ⟨⟨.binary value type yes right, ?_, ?_⟩, .binary value type no right', ?_, ?_⟩
  · simp [EvalNode.bare, bareYes]
  · rw [results, rejected, junction.rejectLeft]
  · simp [EvalNode.bare, bareNo, bare]
  · rw [results]
    exact junction.keeps _ _ other kept

theorem Varies.binary_right (isLeft : Settled st depJob left)
    (needed : needs (result st depJob left)) (isRight : Varies st depJob right) :
    Varies st depJob (.binary value type left right) := by
  obtain ⟨yes, bareYes, rejected⟩ := isRight.reject
  obtain ⟨no, bareNo, other⟩ := isRight.other
  refine ⟨⟨.binary value type left yes, ?_, ?_⟩, .binary value type left no, ?_, ?_⟩
  · simp [EvalNode.bare, bareYes]
  · rw [results, rejected, junction.rejectRight _ needed]
  · simp [EvalNode.bare, bareNo]
  · rw [results]
    exact junction.keeps _ _ isLeft.kept other

end Junction

theorem result_term_kept {value : DpValue} {data : EvalTerm}
    (busy : ¬Idle st depJob (.term value data)) :
    result st depJob (.term value data) ≠ some .dpReject := by
  -- the cache may be taken to hold another value
  have other : result st depJob (.term .dpFalse data) ≠ some .dpReject := by
    rw [result_term]
    cases data with
    | job type opType exitCode opFlag jobRec jobIdx =>
      cases jobRec with
      | none => simp [evalTerm]
      | some jpbw =>
        cases look : lookJobs st depJob opFlag jpbw jobIdx with
        | crash => simp [evalTerm, look]
        | invalid => simp [evalTerm, look]
        | jobs js =>
          have values : ∀ v, v ≠ DpValue.dpReject → ∀ js, evalJobs st depJob type opType exitCode
              (skipped opFlag jobIdx) v js ≠ .dpReject := by
            intro v kept js
            induction js generalizing v with
            | nil => exact kept
            | cons jpbw js ih =>
              rw [evalJobs]
              split
              · exact ih v kept
              · split
                · exact ih _ (by simp)
                · split <;> simp
          simpa [evalTerm, look] using values .dpFalse (by simp) js
    | window dptWindow => simp [evalTerm, ofOpen]; split <;> simp
    | jgrp type opType num dptJgrp =>
      cases dptJgrp with
      | none => simp [evalTerm]
      | some array =>
        rw [evalTerm]
        split
        · simp
        · simp only [ofOpen, map_some]
          split <;> simp
  rwa [result_term, evalTerm_settled busy .dpFalse, ← result_term] at other

theorem result_idle_varies (idle : Idle st depJob node) : Varies st depJob node := by
  obtain ⟨yes, bareYes, rejected⟩ := result_idle idle .dpReject
  obtain ⟨no, bareNo, isTrue⟩ := result_idle idle .dpTrue
  exact ⟨⟨yes, bareYes, rejected⟩, no, bareNo, by simp [isTrue]⟩

/-- The evaluation comes to no idle node and the result is settled, or it comes to one and the
result varies. -/
def Told (st : EvalState) (depJob : Option Depending) (node : EvalNode) : Prop :=
  ((∀ n ∈ reached st depJob node, ¬Idle st depJob n) ∧ Settled st depJob node) ∨
    ((∃ n ∈ reached st depJob node, Idle st depJob n) ∧ Varies st depJob node)

theorem Told.other (told : Told st depJob node) :
    ∃ node', node'.bare = node.bare ∧ result st depJob node' ≠ some .dpReject := by
  rcases told with ⟨-, settled⟩ | ⟨-, varies⟩
  · exact ⟨node, rfl, settled.kept⟩
  · exact varies.other

theorem told_term (value : DpValue) (data : EvalTerm) : Told st depJob (.term value data) := by
  by_cases idle : Idle st depJob (.term value data)
  · exact Or.inr ⟨⟨_, mem_singleton_self _, idle⟩, result_idle_varies idle⟩
  · refine Or.inl ⟨forall_mem_singleton.mpr idle, ⟨?_, result_term_kept idle⟩⟩
    intro node' same
    cases node' with
    | term value' data' =>
      cases same
      rw [result_term, result_term]
      exact evalTerm_settled idle value'
    | not value' left' => cases same
    | binary value' type' left' right' => cases same

theorem Told.not {left : EvalNode} (told : Told st depJob left) (value : DpValue) :
    Told st depJob (.not value left) := by
  have rejected : ∀ l : Option DpValue, l.map notValue = some .dpReject ↔ l = some .dpReject := by
    rintro (_ | _ | _ | _ | _) <;> simp [notValue]
  rcases told with ⟨busy, settled⟩ | ⟨⟨n, mem, idle⟩, varies⟩
  · refine Or.inl ⟨forall_mem_cons.mpr ⟨id, busy⟩, ⟨?_, ?_⟩⟩
    · intro node' same
      cases node' with
      | term value' data' => cases same
      | not value' left' =>
        rw [result_not, result_not, settled.free left' (EvalNode.not.inj same).2]
      | binary value' type' left' right' => cases same
    · rw [result_not, Ne, rejected]
      exact settled.kept
  · obtain ⟨yes, bareYes, isReject⟩ := varies.reject
    obtain ⟨no, bareNo, other⟩ := varies.other
    refine Or.inr ⟨⟨n, mem_cons_of_mem _ mem, idle⟩, ⟨.not value yes, ?_, ?_⟩, .not value no,
      ?_, ?_⟩
    · simp [EvalNode.bare, bareYes]
    · rw [result_not, rejected]
      exact isReject
    · simp [EvalNode.bare, bareNo]
    · rw [result_not, Ne, rejected]
      exact other

theorem Told.binary {op : Option DpValue → Option DpValue → Option DpValue}
    {needs : Option DpValue → Prop} [DecidablePred needs] (junction : Junction op needs)
    {type : DptType} (results : ∀ value left right,
      result st depJob (.binary value type left right) =
        op (result st depJob left) (result st depJob right))
    {value : DpValue} {left right : EvalNode}
    (nodes : reached st depJob (.binary value type left right) =
      .binary value type left right :: (reached st depJob left ++
        if needs (result st depJob left) then reached st depJob right else []))
    (busy : ¬Idle st depJob (.binary value type left right)) (isLeft : Told st depJob left)
    (isRight : Told st depJob right) : Told st depJob (.binary value type left right) := by
  rw [Told, nodes]
  rcases isLeft with ⟨busyL, settledL⟩ | ⟨⟨n, mem, idle⟩, variesL⟩
  · by_cases needed : needs (result st depJob left)
    · rw [if_pos needed]
      rcases isRight with ⟨busyR, settledR⟩ | ⟨⟨n, mem, idle⟩, variesR⟩
      · refine Or.inl ⟨forall_mem_cons.mpr ⟨busy, forall_mem_append.mpr ⟨busyL, busyR⟩⟩, ?_⟩
        exact settledL.binary junction results fun _ => settledR
      · refine Or.inr ⟨⟨n, mem_cons_of_mem _ (mem_append_right _ mem), idle⟩, ?_⟩
        exact Varies.binary_right junction results settledL needed variesR
    · rw [if_neg needed, append_nil]
      refine Or.inl ⟨forall_mem_cons.mpr ⟨busy, busyL⟩, ?_⟩
      exact settledL.binary junction results fun need => absurd need needed
  · refine Or.inr ⟨⟨n, mem_cons_of_mem _ (mem_append_left _ mem), idle⟩, ?_⟩
    exact variesL.binary_left junction results isRight.other

theorem told (st : EvalState) (depJob : Option Depending) (node : EvalNode) :
    Told st depJob node := by
  induction node with
  | term value data => exact told_term value data
  | not value left ih => exact ih.not value
  | binary value type left right ihl ihr =>
    by_cases and_ : type = .and
    · subst and_
      exact Told.binary andResult_junction result_and rfl (fun idle => idle.1 rfl) ihl ihr
    · by_cases or_ : type = .or
      · subst or_
        exact Told.binary orResult_junction result_or rfl (fun idle => idle.2 rfl) ihl ihr
      · have nodes : reached st depJob (.binary value type left right) =
            [.binary value type left right] := by
          rw [reached]
          · exact and_
          · exact or_
        have idle : Idle st depJob (.binary value type left right) := ⟨and_, or_⟩
        exact Or.inr ⟨⟨_, nodes ▸ mem_singleton_self _, idle⟩, result_idle_varies idle⟩

/-- `done(arr[50])`, with the value its node has kept. -/
def absentElement (value : DpValue) : EvalNode :=
  .term value (.job .done .and 0 false (some arrayBase)
    (some ⟨[⟨50, 50, 1, by decide, by decide, by decide⟩], []⟩))

end Results

end Jhlava.DepEval
