import Mathlib.Tactic.IntervalCases
import Jhlava.CLoop
import Jhlava.IdxParse

/-! What an accepted index list satisfies. The stack of the parser follows the
edges of its automaton, which bounds the number of ranges: a range is added to
a list only when two entries leave the stack. -/
namespace Jhlava.JobArray
open CValues List

def IdxRange.Proper (r : IdxRange) : Prop := 1 ≤ r.start ∧ r.start ≤ r.end_ ∧ 1 ≤ r.step

def IdxRange.Fits (r : IdxRange) : Prop := IsInt32 r.start ∧ IsInt32 r.end_ ∧ IsInt32 r.step

def YyStype.Fits (v : YyStype) : Prop :=
  IsInt32 v.ival ∧ v.idxType.Fits ∧ ∀ r ∈ v.idxPtr, r.Fits

def edges : List (Nat × Nat) :=
  [(0, 1), (0, 2), (0, 3), (2, 4), (3, 5), (3, 6), (3, 7), (3, 8), (3, 9), (3, 10), (4, 10),
    (4, 11),
   (5, 12), (6, 13), (7, 14), (8, 15), (9, 10), (9, 16), (13, 6), (13, 7), (13, 8), (13, 9),
     (13, 10), (13, 17), (14, 10), (14, 18), (15, 10), (15, 19)]

/-- What the value of a state is worth, at a given height of the stack: an index
has passed its test, and a list is short where the stack is high. -/
structure Entry.Sound (e : Entry) (height : Nat) : Prop where
  fits : e.val.Fits
  index : e.state = 6 → e.val.idxType.Proper
  indcies : e.state = 5 ∨ e.state = 17 →
    (∀ r ∈ e.val.idxPtr, r.Proper) ∧ 2 * e.val.idxPtr.length + height ≤ YYMAXDEPTH + 2
  arrayInd : e.state = 2 → (∀ r ∈ e.val.idxPtr, r.Proper) ∧ 2 * e.val.idxPtr.length ≤ YYMAXDEPTH

def Shape : List Entry → Prop
  | [] => False
  | [e] => e.state = 0
  | e :: below :: rest =>
    (below.state, e.state) ∈ edges ∧ e.Sound (rest.length + 2) ∧ Shape (below :: rest)

def Listed (ranges : List IdxRange) : Prop :=
  (∀ r ∈ ranges, r.Proper ∧ r.Fits) ∧ 2 * ranges.length ≤ YYMAXDEPTH

structure IdxParser.Ok (p : IdxParser) : Prop where
  shape : Shape p.stack
  height : p.stack.length ≤ YYMAXDEPTH
  out : Listed p.idxList

def Turn.Ok : Turn → Prop
  | .goOn p => p.Ok
  | .accept p => Listed p.idxList
  | .abort _ => True

variable {e : Entry} {env : MbdStage} {error : IdxError} {fuel rule state : Nat} {p : IdxParser} {r
  : IdxRange} {rest stack : List Entry}

theorem IdxParser.Ok.top (ok : p.Ok) (at_ : p.stack = stack) : Shape stack := at_ ▸ ok.shape

theorem Shape.below (shape : Shape (e :: stack)) (up : e.state ≠ 0) :
    ∃ below rest, stack = below :: rest ∧ (below.state, e.state) ∈ edges ∧
      e.Sound (rest.length + 2) ∧ Shape (below :: rest) := by
  cases stack with
  | nil => exact absurd shape up
  | cons below rest => exact ⟨below, rest, rfl, shape⟩

theorem shift_edge {yychar next : Nat} (known : state < 20)
    (shifted : shift state yychar = some next) :
    (state, next) ∈ edges ∧ next ≠ 6 ∧ next ≠ 5 ∧ next ≠ 17 ∧ next ≠ 2 := by
  have all : ∀ (state : Fin 20) (n : Fin 48),
      yypact.getD state YYFLAG + yychk.getD (yyact.getD n 0) 0 = n →
      (state.1, yyact.getD n 0) ∈ edges ∧ yyact.getD n 0 ≠ 6 ∧ yyact.getD n 0 ≠ 5 ∧
      yyact.getD n 0 ≠ 17 ∧ yyact.getD n 0 ≠ 2 := by decide +kernel
  unfold shift at shifted
  dsimp only at shifted
  split at shifted
  · cases shifted
  · split at shifted
    · cases shifted
      have : YYLAST = 48 := rfl
      refine all ⟨state, known⟩ ⟨(yypact.getD state YYFLAG + yychar).toNat, by omega⟩ ?_
      dsimp only
      omega
    · cases shifted

theorem edge_lt {above : Nat} (edge : (state, above) ∈ edges) : above < 20 := by
  have all : ∀ e ∈ edges, e.2 < 20 := by decide
  exact all _ edge

theorem Shape.top_lt (shape : Shape (e :: stack)) : e.state < 20 := by
  cases stack with
  | nil =>
    have bottom : e.state = 0 := shape
    omega
  | cons below rest => exact edge_lt shape.1

theorem yyStack_ok {below : Entry} {yyval : YyStype} (at_ : p.stack = below :: rest)
    (shape : Shape p.stack) (out : Listed p.idxList) (edge : (below.state, state) ∈ edges)
    (sound : p.stack.length < YYMAXDEPTH → Entry.Sound ⟨state, yyval⟩ (p.stack.length + 1)) :
    (yyStack p state yyval).Ok := by
  unfold yyStack
  split
  · trivial
  · rename_i room
    refine ⟨?_, Nat.not_le.mp room, out⟩
    have worth := sound (Nat.not_le.mp room)
    rw [at_] at shape worth ⊢
    exact ⟨edge, worth, shape⟩

theorem lookahead_stack (p : IdxParser) :
    (lookahead p).2.stack = p.stack ∧ (lookahead p).2.idxList = p.idxList := by
  unfold lookahead
  cases p.yychar <;> exact ⟨rfl, rfl⟩

theorem fits_zero : YyStype.zero.Fits := by
  refine ⟨by decide, ⟨by decide, by decide, by decide⟩, ?_⟩
  intro r hr
  exact absurd hr not_mem_nil

/-- The action of a rule on the values on top of the stack. -/
def act (rule : Nat) (stack : List Entry) (len : Nat) (p : IdxParser) :
    Option (YyStype × IdxParser) :=
  action rule (operand stack len 1) (operand stack len 2) (operand stack len 3) p

section Reduce

variable (args : List Entry) {below : Entry} (at_ : p.stack = args ++ below :: rest)
  (len : yyr2.getD rule 0 / 2 = args.length)
include at_ len

theorem reduce_eq : reduce p rule = match act rule (args ++ below :: rest) args.length p with
    | none => .abort p
    | some (yyval, q) =>
      yyStack { q with stack := below :: rest } (gotoState (yyr1.getD rule 0) below.state)
        yyval := by
  unfold reduce
  rw [len]
  dsimp only
  rw [at_, drop_left]
  rfl

theorem reduce_ok (shape : Shape (below :: rest))
    (edge : (below.state, gotoState (yyr1.getD rule 0) below.state) ∈ edges)
    (worth : ∀ yyval q, act rule (args ++ below :: rest) args.length p = some (yyval, q) →
      Listed q.idxList ∧ Entry.Sound ⟨gotoState (yyr1.getD rule 0) below.state, yyval⟩
        (rest.length + 2)) :
    (reduce p rule).Ok := by
  rw [reduce_eq args at_ len]
  split
  · trivial
  · rename_i yyval q done
    exact yyStack_ok rfl shape (worth yyval q done).1 edge fun _ => (worth yyval q done).2

end Reduce

theorem Entry.Sound.plain {val : YyStype} {height : Nat} (fits : val.Fits)
    (other : state ∉ [2, 5, 6, 17]) : Entry.Sound ⟨state, val⟩ height := by
  simp only [mem_cons, not_mem_nil, or_false, not_or] at other
  exact ⟨fits, fun h => absurd h other.2.2.1, fun h => absurd h (by simp [other.2.1, other.2.2.2]),
    fun h => absurd h other.1⟩

theorem Shape.below_eq (shape : Shape (e :: stack)) (state : Nat)
    (only : e.state ≠ 0 ∧ ∀ b, (b, e.state) ∈ edges → b = state) :
    ∃ val rest, stack = ⟨state, val⟩ :: rest ∧ e.Sound (rest.length + 2) ∧
      Shape (⟨state, val⟩ :: rest) := by
  obtain ⟨⟨below, val⟩, rest, rfl, edge, sound, shape⟩ := shape.below only.1
  cases only.2 _ edge
  exact ⟨val, rest, rfl, sound, shape⟩

theorem Shape.index_base (shape : Shape (e :: stack)) (part : e.state ∈ [6, 7, 8, 9]) :
    ∃ below rest, stack = below :: rest ∧ (below.state = 3 ∨ below.state = 13) ∧
      e.Sound (rest.length + 2) ∧ Shape (below :: rest) := by
  obtain ⟨below, rest, eq, edge, sound, shape⟩ := shape.below (fun h => by simp [h] at part)
  have all : ∀ e ∈ edges, e.2 ∈ [6, 7, 8, 9] → e.1 = 3 ∨ e.1 = 13 := by decide
  exact ⟨below, rest, eq, all _ edge part, sound, shape⟩

theorem goto_index (at_ : state = 3 ∨ state = 13) :
    gotoState 2 state = 7 ∧ gotoState 1 state = 6 ∧ (state, 7) ∈ edges ∧ (state, 6) ∈ edges ∧
      (gotoState 3 state = 5 ∨ gotoState 3 state = 17) ∧ (state, gotoState 3 state) ∈ edges := by
  rcases at_ with rfl | rfl <;> decide

theorem isInt32_infinit : IsInt32 INFINIT_INT ∧ IsInt32 1 := by decide

section Rules

variable {p : IdxParser} {val : YyStype} {stack : List Entry}

section Index

variable (args : List Entry) {below : Entry} (ok : p.Ok) (at_ : p.stack = args ++ below :: rest)
  (len : yyr2.getD rule 0 / 2 = args.length) (shape : Shape (below :: rest))
  (base : below.state = 3 ∨ below.state = 13)
include ok at_ len shape base

theorem region_ok (region : yyr1.getD rule 0 = 2)
    (gives : ∃ r, act rule (args ++ below :: rest) args.length p =
      some ({ operand (args ++ below :: rest) args.length 1 with idxType := r }, p) ∧ r.Fits)
    (fits : (operand (args ++ below :: rest) args.length 1).Fits) : (reduce p rule).Ok := by
  obtain ⟨r, done, rfits⟩ := gives
  have target := goto_index base
  refine reduce_ok args at_ len shape ?_ fun yyval q done' => ?_
  · rw [region, target.1]
    exact target.2.2.1
  · rw [done] at done'
    cases done'
    rw [region, target.1]
    exact ⟨ok.out, .plain ⟨fits.1, rfits, fits.2.2⟩ (by decide)⟩

theorem index_ok {step : Int} (index : yyr1.getD rule 0 = 1)
    (gives : ∀ yyval q, act rule (args ++ below :: rest) args.length p = some (yyval, q) →
      q = p ∧ ¬ boundaryError { val.idxType with step } = true ∧
        yyval = { val with idxType := { val.idxType with step } }) (fits : val.Fits)
    (stepFits : IsInt32 step) : (reduce p rule).Ok := by
  have target := goto_index base
  refine reduce_ok args at_ len shape ?_ fun yyval q done => ?_
  · rw [index, target.2.1]
    exact target.2.2.2.1
  · obtain ⟨rfl, inside, rfl⟩ := gives yyval q done
    rw [index, target.2.1]
    refine ⟨ok.out, ⟨fits.1, ⟨fits.2.1.1, fits.2.1.2.1, stepFits⟩, fits.2.2⟩, fun _ => ?_, ?_, ?_⟩
    · simp only [boundaryError, Bool.or_eq_true, decide_eq_true_eq] at inside
      dsimp only [IdxRange.Proper]
      omega
    · rintro (h | h) <;> cases h
    · intro h
      cases h

theorem indcies_ok (ranges : List IdxRange) (indcies : yyr1.getD rule 0 = 3)
    (gives : act rule (args ++ below :: rest) args.length p =
      some ({ val with idxPtr := val.idxType :: ranges }, p))
    (fits : val.Fits) (proper : val.idxType.Proper) (all : ∀ r ∈ ranges, r.Proper ∧ r.Fits)
    (short : 2 * ranges.length + (rest.length + 2) ≤ YYMAXDEPTH) : (reduce p rule).Ok := by
  have target := goto_index base
  refine reduce_ok args at_ len shape ?_ fun yyval q done => ?_
  · rw [indcies]
    exact target.2.2.2.2.2
  · rw [gives] at done
    cases done
    rw [indcies]
    have notTwo : gotoState 3 below.state ≠ 2 ∧ gotoState 3 below.state ≠ 6 := by
      rcases target.2.2.2.2.1 with h | h <;> rw [h] <;> decide
    have listed := forall_mem_cons.mpr ⟨⟨proper, fits.2.1⟩, all⟩
    refine ⟨ok.out, ⟨fits.1, fits.2.1, fun r mem => (listed r mem).2⟩, fun h => absurd h notTwo.2,
      fun _ => ⟨fun r mem => (listed r mem).1, ?_⟩, fun h => absurd h notTwo.1⟩
    simp only [length_cons]
    omega

end Index

theorem of_tested {v v' : YyStype} {q : IdxParser}
    (done : (if boundaryError r then none else some (v, p)) = some (v', q)) :
    q = p ∧ ¬ boundaryError r = true ∧ v' = v := by
  split at done
  · cases done
  · rename_i inside
    cases done
    exact ⟨rfl, inside, rfl⟩

theorem edge_bottom : (0, 2) ∈ edges ∧ (0, 1) ∈ edges ∧ 1 ∉ [2, 5, 6, 17] := by decide

theorem out_of_arrayInd {height : Nat} (sound : e.Sound height) (arrayInd : e.state = 2) :
    Listed e.val.idxPtr :=
  ⟨fun r hr => ⟨(sound.arrayInd arrayInd).1 r hr, sound.fits.2.2 r hr⟩, (sound.arrayInd arrayInd).2⟩

variable (ok : p.Ok)
include ok

theorem reduce_icon (at_ : p.stack = ⟨10, val⟩ :: stack) : (reduce p 12).Ok := by
  obtain ⟨below, rest, rfl, edge, sound, shape⟩ := (ok.top at_).below (by simp)
  have cases_ : below.state = 3 ∨ below.state = 4 ∨ below.state = 9 ∨ below.state = 13 ∨
      below.state = 14 ∨ below.state = 15 := by simpa [edges] using edge
  have target : (below.state, gotoState 5 below.state) ∈ edges ∧
      gotoState 5 below.state ∉ [2, 5, 6, 17] := by
    rcases cases_ with h | h | h | h | h | h <;> rw [h] <;> decide
  refine reduce_ok [⟨10, val⟩] at_ rfl shape target.1 fun yyval q done => ?_
  cases done
  exact ⟨ok.out, .plain ⟨isInt32_toInt32 _, sound.fits.2⟩ target.2⟩

theorem reduce_region_icon (at_ : p.stack = ⟨8, val⟩ :: stack) : (reduce p 8).Ok := by
  obtain ⟨below, rest, rfl, base, sound, shape⟩ := (ok.top at_).index_base (by simp)
  have fits := sound.fits
  exact region_ok [⟨8, val⟩] ok at_ (by simp [yyr2]) shape base rfl
    ⟨⟨val.ival, val.ival, 1⟩, rfl, fits.1, fits.1, isInt32_infinit.2⟩ fits

theorem reduce_region_to (at_ : p.stack = ⟨16, val⟩ :: stack) : (reduce p 9).Ok := by
  obtain ⟨minus, _, rfl, last, shape⟩ := (ok.top at_).below_eq 9 (by simp [edges])
  obtain ⟨below, rest, rfl, base, first, shape⟩ := shape.index_base (by simp)
  exact region_ok [⟨16, val⟩, ⟨9, minus⟩] ok at_ (by simp [yyr2]) shape base rfl
    ⟨⟨1, val.ival, 1⟩, rfl, isInt32_infinit.2, last.fits.1, isInt32_infinit.2⟩ first.fits

theorem reduce_region_from (at_ : p.stack = ⟨15, val⟩ :: stack) : (reduce p 10).Ok := by
  obtain ⟨icon, _, rfl, -, shape⟩ := (ok.top at_).below_eq 8 (by simp [edges])
  obtain ⟨below, rest, rfl, base, first, shape⟩ := shape.index_base (by simp)
  exact region_ok [⟨15, val⟩, ⟨8, icon⟩] ok at_ (by simp [yyr2]) shape base rfl
    ⟨⟨icon.ival, INFINIT_INT, 1⟩, rfl, first.fits.1, isInt32_infinit⟩ first.fits

theorem reduce_region_from_to (at_ : p.stack = ⟨19, val⟩ :: stack) : (reduce p 11).Ok := by
  obtain ⟨minus, _, rfl, last, shape⟩ := (ok.top at_).below_eq 15 (by simp [edges])
  obtain ⟨icon, _, rfl, -, shape⟩ := shape.below_eq 8 (by simp [edges])
  obtain ⟨below, rest, rfl, base, first, shape⟩ := shape.index_base (by simp)
  exact region_ok [⟨19, val⟩, ⟨15, minus⟩, ⟨8, icon⟩] ok at_ (by simp [yyr2]) shape base rfl
    ⟨⟨icon.ival, val.ival, 1⟩, rfl, first.fits.1, last.fits.1, isInt32_infinit.2⟩ first.fits

theorem reduce_index (at_ : p.stack = ⟨7, val⟩ :: stack) : (reduce p 6).Ok := by
  obtain ⟨below, rest, rfl, base, sound, shape⟩ := (ok.top at_).index_base (by simp)
  exact index_ok [⟨7, val⟩] ok at_ (by simp [yyr2]) shape base rfl (fun _ _ => of_tested) sound.fits
    isInt32_infinit.2

theorem reduce_index_step (at_ : p.stack = ⟨18, val⟩ :: stack) : (reduce p 7).Ok := by
  obtain ⟨colon, _, rfl, last, shape⟩ := (ok.top at_).below_eq 14 (by simp [edges])
  obtain ⟨region, _, rfl, -, shape⟩ := shape.below_eq 7 (by simp [edges])
  obtain ⟨below, rest, rfl, base, first, shape⟩ := shape.index_base (by simp)
  exact index_ok [⟨18, val⟩, ⟨14, colon⟩, ⟨7, region⟩] ok at_ (by simp [yyr2]) shape base rfl
    (fun _ _ => of_tested) first.fits last.fits.1

theorem reduce_indcies (at_ : p.stack = ⟨6, val⟩ :: stack) : (reduce p 4).Ok := by
  have height := ok.height
  rw [at_] at height
  obtain ⟨below, rest, rfl, base, sound, shape⟩ := (ok.top at_).index_base (by simp)
  exact indcies_ok [⟨6, val⟩] ok at_ (by simp [yyr2]) shape base [] rfl rfl sound.fits
    (sound.index rfl) (by simp) (le_of_eq_of_le (by simp) height)

theorem reduce_indcies_comma (at_ : p.stack = ⟨17, val⟩ :: stack) : (reduce p 5).Ok := by
  obtain ⟨comma, _, rfl, last, shape⟩ := (ok.top at_).below_eq 13 (by simp [edges])
  obtain ⟨index, _, rfl, -, shape⟩ := shape.below_eq 6 (by simp [edges])
  obtain ⟨below, rest, rfl, base, first, shape⟩ := shape.index_base (by simp)
  have listed := last.indcies (Or.inr rfl)
  refine indcies_ok [⟨17, val⟩, ⟨13, comma⟩, ⟨6, index⟩] ok at_ (by simp [yyr2]) shape base
    val.idxPtr rfl rfl first.fits (first.index rfl)
    (fun r hr => ⟨listed.1 r hr, last.fits.2.2 r hr⟩) ?_
  have := listed.2
  simp only [length_cons] at this
  omega

theorem reduce_arrayInd (at_ : p.stack = ⟨12, val⟩ :: stack) : (reduce p 3).Ok := by
  obtain ⟨list, _, rfl, -, shape⟩ := (ok.top at_).below_eq 5 (by simp [edges])
  obtain ⟨bracket, _, rfl, second, shape⟩ := shape.below_eq 3 (by simp [edges])
  obtain ⟨bottom, rest, rfl, first, shape⟩ := shape.below_eq 0 (by simp [edges])
  have listed := second.indcies (Or.inl rfl)
  refine reduce_ok [⟨12, val⟩, ⟨5, list⟩, ⟨3, bracket⟩] at_ (by simp [yyr2]) shape
    edge_bottom.1 fun yyval q done => ?_
  cases done
  refine ⟨ok.out, ⟨first.fits.1, first.fits.2.1, second.fits.2.2⟩, fun h => (by cases h), ?_, ?_⟩
  · rintro (h | h) <;> cases h
  · intro _
    have short : 2 * list.idxPtr.length ≤ YYMAXDEPTH := by
      have := listed.2
      simp only [length_cons] at this
      omega
    exact ⟨listed.1, short⟩

theorem reduce_spec (at_ : p.stack = ⟨2, val⟩ :: stack) : (reduce p 1).Ok := by
  obtain ⟨bottom, rest, rfl, sound, shape⟩ := (ok.top at_).below_eq 0 (by simp [edges])
  refine reduce_ok [⟨2, val⟩] at_ (by simp [yyr2]) shape edge_bottom.2.1 fun yyval q done => ?_
  cases done
  exact ⟨out_of_arrayInd sound rfl, .plain sound.fits edge_bottom.2.2⟩

theorem reduce_spec_limit (at_ : p.stack = ⟨11, val⟩ :: stack) : (reduce p 2).Ok := by
  obtain ⟨percent, _, rfl, -, shape⟩ := (ok.top at_).below_eq 4 (by simp [edges])
  obtain ⟨list, _, rfl, -, shape⟩ := shape.below_eq 2 (by simp [edges])
  obtain ⟨bottom, rest, rfl, sound, shape⟩ := shape.below_eq 0 (by simp [edges])
  refine reduce_ok [⟨11, val⟩, ⟨4, percent⟩, ⟨2, list⟩] at_ (by simp [yyr2]) shape
    edge_bottom.2.1 fun yyval q done => ?_
  cases done
  exact ⟨out_of_arrayInd sound rfl, .plain sound.fits edge_bottom.2.2⟩

end Rules

theorem yyDefault_ok (ok : p.Ok) (at_ : p.stack = e :: stack) : (yyDefault p e.state).Ok := by
  have known : e.state < 20 := (ok.top at_).top_lt
  obtain ⟨state, val⟩ := e
  interval_cases state
  case «1» =>
    change Turn.Ok (if (lookahead p).1 = 0 then .accept (lookahead p).2 else .abort p)
    split
    · rw [Turn.Ok, (lookahead_stack p).2]
      exact ok.out
    · trivial
  case «2» => exact reduce_spec ok at_
  case «6» => exact reduce_indcies ok at_
  case «7» => exact reduce_index ok at_
  case «8» => exact reduce_region_icon ok at_
  case «10» => exact reduce_icon ok at_
  case «11» => exact reduce_spec_limit ok at_
  case «12» => exact reduce_arrayInd ok at_
  case «15» => exact reduce_region_from ok at_
  case «16» => exact reduce_region_to ok at_
  case «17» => exact reduce_indcies_comma ok at_
  case «18» => exact reduce_index_step ok at_
  case «19» => exact reduce_region_from_to ok at_
  all_goals trivial

theorem yyTurn_ok (ok : p.Ok) : (yyTurn p).Ok := by
  have shape := ok.shape
  cases at_ : p.stack with
  | nil =>
    rw [at_] at shape
    exact absurd shape id
  | cons e stack =>
    rw [at_] at shape
    have ahead := lookahead_stack p
    have okAhead : (lookahead p).2.Ok :=
      ⟨ahead.1 ▸ ok.shape, ahead.1 ▸ ok.height, ahead.2 ▸ ok.out⟩
    unfold yyTurn
    simp only [at_, List.head?_cons, Option.map_some, Option.getD_some]
    split
    · exact yyDefault_ok ok at_
    · split
      · rename_i next shifted
        obtain ⟨edge, apart⟩ := shift_edge shape.top_lt shifted
        refine yyStack_ok (ahead.1.trans at_) okAhead.shape okAhead.out edge fun _ =>
          .plain fits_zero ?_
        simp [apart]
      · exact yyDefault_ok okAhead (ahead.1.trans at_)

theorem idxLoop_listed {q : IdxParser} (ok : p.Ok) (done : idxLoop fuel p = some (true, q)) :
    Listed q.idxList := by
  induction fuel generalizing p with
  | zero => cases done
  | succ fuel ih =>
    have turn := yyTurn_ok ok
    rw [idxLoop] at done
    split at done
    · rename_i next eq
      rw [eq] at turn
      exact ih turn done
    · rename_i next eq
      rw [eq] at turn
      cases done
      exact turn
    · cases done

theorem idxparse_listed {scan : Scan} {limit : Int}
    (done : idxparse fuel scan limit = some (true, p)) : Listed p.idxList := by
  refine idxLoop_listed ⟨?_, ?_, ?_, ?_⟩ done
  · exact (rfl : 0 = 0)
  · exact (by decide : 1 ≤ YYMAXDEPTH)
  · exact fun r hr => absurd hr not_mem_nil
  · exact Nat.zero_le _

def IdxRange.indices (r : IdxRange) : List Int :=
  CLoop.steps r.start r.step ((r.end_ - r.start) / r.step + 1).toNat

def numIndices (ranges : List IdxRange) : Nat := (ranges.map fun r => r.indices.length).sum

/-- A range that the checks leave without an error. -/
structure IdxRange.Accepted (env : MbdStage) (r : IdxRange) : Prop where
  start_pos : 1 ≤ r.start
  step_pos : 1 ≤ r.step
  ordered : r.start ≤ r.end_
  below : env.replay = false → r.end_ < 65535

theorem rangeError_eq (none : rangeError env r error = .noError) :
    error = .noError ∧ r.Accepted env := by
  unfold rangeError at none
  dsimp only at none
  split at none
  · cases none
  · rename_i small
    split at none
    · cases none
    · split at none
      · cases none
      · refine ⟨none, ?_⟩
        have max : LSB_MAX_ARRAY_IDX = 65535 := rfl
        refine ⟨by omega, by omega, by omega, fun live => ?_⟩
        simp only [live, Bool.not_false, true_and] at small
        omega

variable {ranges : List IdxRange}

theorem accepted_of_checkRanges {arraySize : Int}
    (none : (checkRanges env ranges (error, arraySize)).1 = .noError) :
    error = .noError ∧ ∀ r ∈ ranges, r.Accepted env := by
  induction ranges generalizing error arraySize with
  | nil => exact ⟨none, fun r hr => absurd hr not_mem_nil⟩
  | cons r ranges ih =>
    obtain ⟨first, rest⟩ := ih none
    obtain ⟨start, accepted⟩ := rangeError_eq first
    refine ⟨start, fun r' hr => ?_⟩
    rcases mem_cons.mp hr with rfl | hr
    · exact accepted
    · exact rest r' hr

theorem rangeSize_eq (live : env.replay = false) (accepted : r.Accepted env) :
    rangeSize r = r.indices.length ∧ r.indices.length ≤ 65534 := by
  have start := accepted.start_pos
  have step := accepted.step_pos
  have ordered := accepted.ordered
  have below := accepted.below live
  have quot : 0 ≤ (r.end_ - r.start) / r.step := Int.ediv_nonneg (by omega) (by omega)
  have le : (r.end_ - r.start) / r.step ≤ r.end_ - r.start := Int.ediv_le_self _ (by omega)
  have size : rangeSize r = (r.end_ - r.start) / r.step + 1 := by
    have diff : toInt32 (r.end_ - r.start) = r.end_ - r.start :=
      toInt32_of_bounds (by omega) (by omega)
    rw [rangeSize, diff, Int.tdiv_eq_ediv_of_nonneg (by omega),
      toInt32_of_bounds (by omega) (by omega)]
  rw [IdxRange.indices, CLoop.steps, length_map, length_range]
  omega

theorem checkRanges_size (live : env.replay = false) (all : ∀ r ∈ ranges, r.Accepted env)
    {arraySize : Int} (pos : 0 ≤ arraySize) (room : arraySize + 65534 * ranges.length < 2 ^ 31) :
    (checkRanges env ranges (error, arraySize)).2 = arraySize + numIndices ranges := by
  induction ranges generalizing error arraySize with
  | nil => simp [checkRanges, numIndices]
  | cons r ranges ih =>
    obtain ⟨size, small⟩ := rangeSize_eq live (all r mem_cons_self)
    have next : toInt32 (arraySize + rangeSize r) = arraySize + r.indices.length := by
      rw [size]
      simp only [length_cons] at room
      exact toInt32_of_bounds (by omega) (by omega)
    rw [checkRanges, ih (fun r' hr => all r' (mem_cons_of_mem _ hr)) (by omega) ?_]
    · simp only [numIndices, map_cons, sum_cons]
      omega
    · simp only [length_cons] at room
      omega

theorem parsed_cases {token jobName : List Char} {limit : Int} {parsed : ParsedIndex}
    (done : parseJobArrayIndex env fuel token jobName limit = some parsed)
    (accepted : parsed.idxList ≠ []) :
    ∃ ranges, Listed ranges ∧ parsed.idxList = ranges.map (closeRange env) ∧
      (checkRanges env parsed.idxList (.noError, 0)).1 = .noError ∧
      (env.replay = false →
        (checkRanges env parsed.idxList (.noError, 0)).2 ≤ env.maxJobArraySize) := by
  unfold parseJobArrayIndex at done
  split at done
  · cases done
    exact absurd rfl accepted
  · split at done
    · cases done
    · cases done
      exact absurd rfl accepted
    · rename_i p parse
      dsimp only at done
      split at done
      · cases done
        exact absurd rfl accepted
      · rename_i small
        split at done
        · rename_i none
          cases done
          refine ⟨p.idxList, idxparse_listed parse, rfl, none, fun live => ?_⟩
          simpa [live] using small
        · cases done
          exact absurd rfl accepted

/-- Outside replay, an accepted index list has all its indices between one and
65534, and not more of them than a job array may have. -/
theorem parseJobArrayIndex_bounds {env : MbdStage} {fuel : Nat} {token jobName : List Char}
    {limit : Int} {parsed : ParsedIndex} (live : env.replay = false)
    (done : parseJobArrayIndex env fuel token jobName limit = some parsed)
    (accepted : parsed.idxList ≠ []) :
    (∀ r ∈ parsed.idxList, 1 ≤ r.start ∧ r.start ≤ r.end_ ∧ r.end_ < 65535 ∧ 1 ≤ r.step) ∧
      numIndices parsed.idxList ≤ env.maxJobArraySize := by
  obtain ⟨ranges, listed, eq, none, small⟩ := parsed_cases done accepted
  have all := (accepted_of_checkRanges none).2
  refine ⟨fun r hr => ?_, ?_⟩
  · exact ⟨(all r hr).start_pos, (all r hr).ordered, (all r hr).below live, (all r hr).step_pos⟩
  · have few : parsed.idxList.length ≤ 75 := by
      have := listed.2
      have depth : YYMAXDEPTH = 150 := rfl
      rw [eq, length_map]
      omega
    have size : (checkRanges env parsed.idxList (.noError, 0)).2 = 0 + numIndices parsed.idxList :=
      checkRanges_size live all (Int.le_refl 0) (by omega)
    have := small live
    omega

/-- Three ranges, one of them with an open start, and a limit of running jobs. -/
theorem parseJobArrayIndex_bounds_three :
    ∃ parsed, parseJobArrayIndex ⟨false, 1000⟩ 100 [] "a[1-10:3, 7,-4]%5".toList 0 = some parsed ∧
      parsed.idxList = [⟨1, 10, 3⟩, ⟨7, 7, 1⟩, ⟨1, 4, 1⟩] ∧ parsed.maxJLimit = 5 ∧
      (∀ r ∈ parsed.idxList, 1 ≤ r.start ∧ r.start ≤ r.end_ ∧ r.end_ < 65535 ∧ 1 ≤ r.step) ∧
      (numIndices parsed.idxList : Int) ≤ 1000 :=
  ⟨⟨[⟨1, 10, 3⟩, ⟨7, 7, 1⟩, ⟨1, 4, 1⟩], .noError, 5⟩, by decide +kernel, rfl, rfl,
    @parseJobArrayIndex_bounds ⟨false, 1000⟩ 100 [] "a[1-10:3, 7,-4]%5".toList 0
      ⟨[⟨1, 10, 3⟩, ⟨7, 7, 1⟩, ⟨1, 4, 1⟩], .noError, 5⟩ rfl (by decide +kernel) (by decide)⟩

end Jhlava.JobArray
