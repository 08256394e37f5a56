import Mathlib.Data.List.TakeWhile
import Mathlib.Data.Prod.Lex
import Mathlib.Data.Rat.Floor
import Mathlib.Order.CompletePartialOrder
import Mathlib.Tactic.Linarith
import Jhlava.Window

/-! The windows stored for the days of the week are the union of the windows that have been
added, and those of one day are disjoint. An inserted window is merged with every window
it touches, and appended behind them when there is none, so they are not in order. -/
namespace Jhlava.Windows
open CValues Dep

/-! ### The meaning of windows -/

/-- What lies from `start` up to `stop` on a circle that is cut open at the ends of the
order. -/
def CyclicIco {α : Type} [LinearOrder α] (start stop point : α) : Prop :=
  start < stop ∧ start ≤ point ∧ point < stop ∨ stop < start ∧ (start ≤ point ∨ point < stop)

def InWindow (ohour : Rat) (oday : Nat) (chour : Rat) (cday day : Nat) (hour : Rat) : Prop :=
  if oday = 0 then CyclicIco ohour chour hour
  else CyclicIco (toLex (oday, ohour)) (toLex (cday, chour)) (toLex (day, hour))

/-- The point lies in the window that is written as `wordpair`. -/
def WordCovers (wordpair : List Char) (day : Nat) (hour : Rat) : Prop :=
  ∃ word sp ohour oday chour cday, strchr '-' wordpair = some (word, sp) ∧
    parseTime word = some (ohour, oday) ∧ parseTime sp = some (chour, cday) ∧
    InWindow ohour oday chour cday day hour

def Window.times (w : Window) : Set Rat := Set.Ico w.opentime w.closetime

/-- The hour is in one of the windows, as `checkWindow` tests it. -/
def Covered (ws : List Window) (hour : Rat) : Prop := ∃ w ∈ ws, hour ∈ w.times

def IsHour (hour : Rat) : Prop := 0 ≤ hour ∧ hour < 24

/-! ### Merging -/

def Window.Bounded (w : Window) : Prop := -1 ≤ w.opentime ∧ w.closetime ≤ 25

theorem bounded_of_read {ohour chour : Rat} (low : 0 ≤ ohour) (high : chour < 24) :
    (Window.mk ohour chour).Bounded ∧ (Window.mk ohour 25).Bounded ∧
      (Window.mk (-1) chour).Bounded := by
  refine ⟨⟨?_, ?_⟩, ⟨?_, le_rfl⟩, ⟨le_rfl, ?_⟩⟩ <;> dsimp only <;> linarith

def Apart (w v : Window) : Prop := w.closetime < v.opentime ∨ v.closetime < w.opentime

variable {cday day oday : Nat} {w : Window} {week week' : Week} {word : List Char}

theorem Apart.disjoint {v : Window} (apart : Apart w v) : Disjoint w.times v.times := by
  rw [Set.disjoint_left]
  rintro hour ⟨low, high⟩ ⟨low', high'⟩
  rcases apart with lt | lt <;> linarith

variable {wp : Window} {ohour chour hour : Rat} {ws : List Window}

theorem mergeW_cases (wp : Window) (ohour chour : Rat) :
    (mergeW wp ohour chour = (true, wp) ∧ (wp = ⟨-1, 25⟩ ∨ chour ≤ ohour)) ∨
    (mergeW wp ohour chour = (true, ⟨ohour, chour⟩) ∧ (ohour = -1 ∧ chour = 25 ∨ wp = ⟨25, 25⟩)) ∨
    (mergeW wp ohour chour =
        (true, ⟨min (openEnd ohour) wp.opentime, max (closeEnd chour) wp.closetime⟩) ∧
      wp.opentime ≤ closeEnd chour ∧ openEnd ohour ≤ wp.closetime) ∨
    (mergeW wp ohour chour = (false, wp) ∧ ohour < chour ∧
      (closeEnd chour < wp.opentime ∨ wp.closetime < openEnd ohour)) := by
  have whole : ∀ {o c : Rat}, wp.opentime = o ∧ wp.closetime = c → wp = ⟨o, c⟩ := by
    rintro o c ⟨rfl, rfl⟩
    rfl
  unfold mergeW
  split_ifs with full all never empty closed touch
  · exact .inl ⟨rfl, .inl (whole full)⟩
  · exact .inr (.inl ⟨by rw [all.1, all.2], .inl all⟩)
  · exact .inl ⟨rfl, .inr (by rw [never.1, never.2])⟩
  · exact .inl ⟨rfl, .inr empty⟩
  · exact .inr (.inl ⟨rfl, .inr (whole closed)⟩)
  · exact .inr (.inr (.inl ⟨rfl, not_lt.1 touch.1, not_lt.1 touch.2⟩))
  · refine .inr (.inr (.inr ⟨rfl, not_le.1 empty, ?_⟩))
    rwa [not_and_or, not_not, not_not] at touch

theorem openEnd_le (low : -1 ≤ ohour) : -1 ≤ openEnd ohour ∧ openEnd ohour ≤ ohour := by
  unfold openEnd
  split_ifs <;> constructor <;> linarith

theorem le_closeEnd (high : chour ≤ 25) : chour ≤ closeEnd chour ∧ closeEnd chour ≤ 25 := by
  unfold closeEnd
  split_ifs <;> constructor <;> linarith

theorem mem_widened (inDay : IsHour hour) :
    hour ∈ Set.Ico (openEnd ohour) (closeEnd chour) ↔ hour ∈ Set.Ico ohour chour := by
  obtain ⟨low, high⟩ := inDay
  simp only [openEnd, closeEnd, Set.mem_Ico]
  split_ifs <;> constructor <;> rintro ⟨_, _⟩ <;> constructor <;> linarith

theorem mergeW_times (inDay : IsHour hour) :
    hour ∈ (mergeW wp ohour chour).2.times ↔
      hour ∈ wp.times ∨ (mergeW wp ohour chour).1 = true ∧ hour ∈ Set.Ico ohour chour := by
  obtain ⟨low, high⟩ := inDay
  rcases mergeW_cases wp ohour chour with
    ⟨eq, full | empty⟩ | ⟨eq, all | closed⟩ | ⟨eq, touch⟩ | ⟨eq, -⟩ <;> rw [eq]
  · subst full
    have inside : -1 ≤ hour ∧ hour < 25 := ⟨by linarith, by linarith⟩
    simp [Window.times, inside]
  · simp [Set.Ico_eq_empty_of_le empty]
  · obtain ⟨rfl, rfl⟩ := all
    have inside : hour ∈ Set.Ico (-1 : Rat) 25 := ⟨by linarith, by linarith⟩
    simp [Window.times, inside]
  · subst closed
    simp [Window.times]
  · have union := Set.Ico_union_Ico' touch.2 touch.1
    rw [min_comm, max_comm] at union
    simp [Window.times, ← union, mem_widened ⟨low, high⟩]
  · simp

theorem mergeW_apart (bounded : (Window.mk ohour chour).Bounded)
    (kept : (mergeW wp ohour chour).1 = false) : ohour < chour ∧ Apart wp ⟨ohour, chour⟩ := by
  rcases mergeW_cases wp ohour chour with
    ⟨eq, -⟩ | ⟨eq, -⟩ | ⟨eq, -⟩ | ⟨-, proper, apart⟩
  iterate 3 simp [eq] at kept
  refine ⟨proper, ?_⟩
  rcases apart with behind | before
  · exact .inr ((le_closeEnd bounded.2).1.trans_lt behind)
  · exact .inl (before.trans_le (openEnd_le bounded.1).2)

theorem mergeW_bounded (bounded : wp.Bounded) (inserted : (Window.mk ohour chour).Bounded) :
    (mergeW wp ohour chour).2.Bounded := by
  rcases mergeW_cases wp ohour chour with
    ⟨eq, -⟩ | ⟨eq, -⟩ | ⟨eq, -⟩ | ⟨eq, -⟩ <;> rw [eq]
  · exact bounded
  · exact inserted
  · exact ⟨le_min (openEnd_le inserted.1).1 bounded.1, max_le (le_closeEnd inserted.2).2 bounded.2⟩
  · exact bounded

/-! ### Inserting -/

/-- The windows of a day as they are stored. -/
structure Stored (ws : List Window) : Prop where
  bounded : ∀ w ∈ ws, w.Bounded
  apart : ws.Pairwise Apart

/-- What an insertion makes of the windows `ws`. -/
structure Inserted (ws : List Window) (w : Window) (ws' : List Window) : Prop where
  length : ws'.length ≤ ws.length + 1
  covered : ∀ hour, IsHour hour → (Covered ws' hour ↔ Covered ws hour ∨ hour ∈ w.times)
  stored : w.Bounded → Stored ws → Stored ws'

theorem newWind_times : (newWind ohour chour).times = Set.Ico ohour chour := by
  unfold newWind Window.times
  split_ifs with proper
  · rfl
  · simp [Set.Ico_eq_empty_of_le (not_lt.1 proper)]

theorem newWind_bounded (bounded : (Window.mk ohour chour).Bounded) :
    (newWind ohour chour).Bounded := by
  unfold newWind
  split_ifs
  · exact bounded
  · exact ⟨by norm_num, le_rfl⟩

theorem newWind_inserted (w : Window) : Inserted [] w [newWind w.opentime w.closetime] where
  length := le_rfl
  covered hour _ := by
    have same : (newWind w.opentime w.closetime).times = w.times := newWind_times
    simp [Covered, same]
  stored bounded _ := ⟨List.forall_mem_singleton.2 (newWind_bounded bounded),
    List.pairwise_singleton _ _⟩

theorem covered_cons : Covered (w :: ws) hour ↔ hour ∈ w.times ∨ Covered ws hour := by
  simp [Covered]

theorem covered_append {ws' : List Window} :
    Covered (ws ++ ws') hour ↔ Covered ws hour ∨ Covered ws' hour := by
  simp only [Covered, List.mem_append, or_and_right, exists_or]

theorem covered_singleton : Covered [w] hour ↔ hour ∈ w.times := by
  simp [Covered]

theorem Inserted.foldl {fuel : Nat} {insert : List Window → Window → List Window}
    (inserted : ∀ list w, list.length ≤ fuel → Inserted list w (insert list w))
    (ws list : List Window) (fits : list.length + ws.length ≤ fuel + 1) :
    (ws.foldl insert list).length ≤ list.length + ws.length ∧
      (∀ hour, IsHour hour →
        (Covered (ws.foldl insert list) hour ↔ Covered list hour ∨ Covered ws hour)) ∧
      ((∀ w ∈ ws, w.Bounded) → Stored list → Stored (ws.foldl insert list)) := by
  induction ws generalizing list with
  | nil => exact ⟨le_rfl, fun hour _ => by simp [Covered], fun _ stored => stored⟩
  | cons w ws ih =>
    rw [List.length_cons] at fits ⊢
    have first := inserted list w (by omega)
    have length := first.length
    obtain ⟨rest, covered, stored⟩ := ih (insert list w) (by omega)
    rw [List.foldl_cons]
    refine ⟨by omega, fun hour inDay => ?_, fun bounded kept => ?_⟩
    · rw [covered hour inDay, first.covered hour inDay, covered_cons, or_assoc]
    · rw [List.forall_mem_cons] at bounded
      exact stored bounded.2 (first.stored bounded.1 kept)

theorem covered_map_mergeW (inDay : IsHour hour)
    (merged : ws.any (fun wp => (mergeW wp ohour chour).1) = true) :
    Covered (ws.map fun wp => (mergeW wp ohour chour).2) hour ↔
      Covered ws hour ∨ hour ∈ Set.Ico ohour chour := by
  constructor
  · rintro ⟨_, isMerged, inside⟩
    obtain ⟨wp, mem, rfl⟩ := List.mem_map.1 isMerged
    rcases (mergeW_times inDay).1 inside with before | ⟨-, new⟩
    · exact .inl ⟨wp, mem, before⟩
    · exact .inr new
  · rintro (⟨wp, mem, before⟩ | new)
    · exact ⟨_, List.mem_map_of_mem mem, (mergeW_times inDay).2 (.inl before)⟩
    · obtain ⟨wp, mem, taken⟩ := List.any_eq_true.1 merged
      exact ⟨_, List.mem_map_of_mem mem, (mergeW_times inDay).2 (.inr ⟨taken, new⟩)⟩

theorem insertFuel_inserted (fuel : Nat) (ws : List Window) (w : Window)
    (fits : ws.length ≤ fuel) : Inserted ws w (insertFuel fuel ws w.opentime w.closetime) := by
  induction fuel generalizing ws w with
  | zero =>
    obtain rfl := List.eq_nil_of_length_eq_zero (Nat.le_zero.1 fits)
    exact newWind_inserted w
  | succ fuel ih =>
    cases ws with
    | nil => exact newWind_inserted w
    | cons wp ws =>
      rw [insertFuel]
      split_ifs with merged
      · rw [List.length_cons] at fits
        obtain ⟨length, covered, stored⟩ := Inserted.foldl ih
          (ws.map fun wp => (mergeW wp w.opentime w.closetime).2)
          [(mergeW wp w.opentime w.closetime).2] (by simp; omega)
        refine ⟨length.trans (by simp; omega), fun hour inDay => ?_, fun bounded kept => ?_⟩
        · rw [covered hour inDay, covered_singleton, ← covered_cons]
          exact covered_map_mergeW inDay merged
        · have offered : ∀ v ∈ wp :: ws, (mergeW v w.opentime w.closetime).2.Bounded :=
            fun v mem => mergeW_bounded (kept.bounded v mem) bounded
          rw [List.forall_mem_cons] at offered
          refine stored (List.forall_mem_map.2 offered.2) ⟨?_, List.pairwise_singleton _ _⟩
          exact List.forall_mem_singleton.2 offered.1
      · refine ⟨by simp, fun hour inDay => ?_, fun bounded kept => ⟨?_, ?_⟩⟩
        · rw [covered_append, covered_singleton, newWind_times, Window.times]
        · rw [List.forall_mem_append]
          exact ⟨kept.bounded, List.forall_mem_singleton.2 (newWind_bounded bounded)⟩
        · have apart : ∀ v ∈ wp :: ws, Apart v (newWind w.opentime w.closetime) := by
            intro v mem
            have untouched := mt (fun taken => List.any_eq_true.2 ⟨v, mem, taken⟩) merged
            obtain ⟨proper, apart⟩ := mergeW_apart bounded (eq_false_of_ne_true untouched)
            rwa [newWind, if_pos proper]
          rw [List.pairwise_append]
          refine ⟨kept.apart, List.pairwise_singleton _ _, fun v mem new isNew => ?_⟩
          rw [List.mem_singleton.1 isNew]
          exact apart v mem

/-! ### Adding to the week -/

/-- The points `added` have come to the windows of the week. -/
structure Adds (week week' : Week) (added : Nat → Rat → Prop) : Prop where
  covered : ∀ day hour, IsHour hour →
    (Covered (week' day) hour ↔ Covered (week day) hour ∨ added day hour)
  stored : (∀ day, Stored (week day)) → ∀ day, Stored (week' day)

variable {added added' : Nat → Rat → Prop}

theorem Adds.trans {week₁ week₂ week₃ : Week} (first : Adds week₁ week₂ added)
    (second : Adds week₂ week₃ added') :
    Adds week₁ week₃ fun day hour => added day hour ∨ added' day hour where
  covered day hour inDay := by
    rw [second.covered day hour inDay, first.covered day hour inDay, or_assoc]
  stored kept := second.stored (first.stored kept)

theorem Adds.congr (adds : Adds week week' added)
    (same : ∀ day hour, IsHour hour → (added day hour ↔ added' day hour)) :
    Adds week week' added' where
  covered day hour inDay := by rw [adds.covered day hour inDay, same day hour inDay]
  stored := adds.stored

theorem Adds.refl (week : Week) : Adds week week fun _ _ => False where
  covered _ _ _ := by simp
  stored kept := kept

theorem Adds.foldl {ι : Type} {step : Week → ι → Week} {added : ι → Nat → Rat → Prop}
    {items : List ι} (each : ∀ week, ∀ i ∈ items, Adds week (step week i) (added i))
    (week : Week) :
    Adds week (items.foldl step week) fun day hour => ∃ i ∈ items, added i day hour := by
  induction items generalizing week with
  | nil => exact (Adds.refl week).congr fun _ _ _ => by simp
  | cons i items ih =>
    simp only [List.forall_mem_cons] at each
    exact ((each week).1.trans (ih (fun week => (each week).2) _)).congr fun _ _ _ => by simp

theorem insertDay_adds (week : Week) (i : Nat) (bounded : (Window.mk ohour chour).Bounded) :
    Adds week (insertDay week i ohour chour)
      fun day hour => day = i ∧ hour ∈ Set.Ico ohour chour := by
  have inserted : Inserted (week i) ⟨ohour, chour⟩ (insertW (week i) ohour chour) :=
    insertFuel_inserted _ _ _ le_rfl
  refine ⟨fun day hour inDay => ?_, fun kept day => ?_⟩
  · by_cases same : day = i
    · subst same
      simpa [insertDay, Window.times] using inserted.covered hour inDay
    · simp [insertDay, same]
  · by_cases same : day = i
    · subst same
      simpa [insertDay] using inserted.stored bounded (kept day)
    · simpa [insertDay, same] using kept day

theorem closeDays_adds (week : Week) : Adds week (closeDays week) fun _ _ => False := by
  have each : ∀ week : Week, ∀ j ∈ weekDays,
      Adds week (if week j = [] then insertDay week j 25 25 else week) fun _ _ => False := by
    intro week j _
    split_ifs
    · exact (insertDay_adds week j ⟨by norm_num, le_rfl⟩).congr fun _ _ _ => by simp
    · exact Adds.refl week
  exact (Adds.foldl each week).congr fun _ _ _ => by simp

/-! ### The times that are read -/

theorem strtol_nonneg (plain : '-' ∉ word) : 0 ≤ (strtol word).value := by
  have head : ∀ rest, word.dropWhile isspace ≠ '-' :: rest := by
    intro rest eq
    exact plain ((List.dropWhile_sublist _).mem (eq ▸ List.mem_cons_self))
  unfold strtol
  generalize word.dropWhile isspace = body at head ⊢
  dsimp only
  split
  next rest => exact absurd rfl (head rest)
  all_goals
    simp only [Bool.false_eq_true, if_false]
    split_ifs <;> dsimp only <;> omega

theorem readHour_bounds (read : readHour word = some hour) :
    hour ≤ 23 ∧ ('-' ∉ word → 0 ≤ hour) := by
  unfold readHour at read
  split_ifs at read with notInt high
  obtain rfl := Option.some.inj read
  refine ⟨by exact_mod_cast not_lt.1 high, fun plain => ?_⟩
  exact_mod_cast strtol_nonneg plain

theorem readMinute_bounds {minute : Rat} (read : readMinute word = some minute) :
    0 ≤ minute ∧ minute ≤ 59 := by
  unfold readMinute at read
  split_ifs at read with notInt high
  obtain rfl := Option.some.inj read
  simp only [Bool.or_eq_true, not_or, decide_eq_true_eq] at notInt
  exact ⟨by exact_mod_cast not_lt.1 notInt.2, by exact_mod_cast not_lt.1 high⟩

theorem readDay_mem (read : readDay word = some day) : day ∈ weekDays := by
  unfold readDay at read
  by_cases refused : (!isint word || decide (atoi word < 0)) = true
  · simp [refused] at read
  · dsimp only at read
    generalize (if atoi word = 0 then 7 else atoi word) = number at read
    split_ifs at read with outside
    obtain rfl := Option.some.inj read
    simp only [weekDays, List.mem_cons, List.not_mem_nil, or_false]
    omega

variable {s before behind : List Char}

theorem strchr_some {c : Char} (found : strchr c s = some (before, behind)) :
    c ∉ before ∧ (∀ x ∈ before, x ∈ s) ∧ ∀ x ∈ behind, x ∈ s := by
  unfold strchr at found
  split_ifs at found with mem
  obtain ⟨rfl, rfl⟩ := Prod.mk.inj (Option.some.inj found)
  refine ⟨fun isIn => ?_, fun x => (List.takeWhile_sublist _).mem, fun x isIn => ?_⟩
  · simpa using List.mem_takeWhile_imp isIn
  · exact (List.dropWhile_sublist _).mem (List.mem_of_mem_tail isIn)

theorem strrchr_some {c : Char} (found : strrchr c s = some (before, behind)) :
    (∀ x ∈ before, x ∈ s) ∧ ∀ x ∈ behind, x ∈ s := by
  obtain ⟨⟨after, first⟩, eq, same⟩ := Option.map_eq_some_iff.1 found
  obtain ⟨rfl, rfl⟩ := Prod.mk.inj same
  obtain ⟨-, inAfter, inFirst⟩ := strchr_some eq
  exact ⟨by simpa using inFirst, by simpa using inAfter⟩

theorem parseTime_bounds (read : parseTime word = some (hour, day)) :
    hour < 24 ∧ (day = 0 ∨ day ∈ weekDays) ∧ ('-' ∉ word → 0 ≤ hour) := by
  unfold parseTime at read
  split at read
  · obtain ⟨_, isHour, eq⟩ := Option.map_eq_some_iff.1 read
    obtain ⟨rfl, rfl⟩ := Prod.mk.inj eq
    obtain ⟨high, low⟩ := readHour_bounds isHour
    exact ⟨by linarith, .inl rfl, low⟩
  · next rest last cut =>
      obtain ⟨minute, isMinute, read⟩ := Option.bind_eq_some_iff.1 read
      obtain ⟨fromZero, toHour⟩ := readMinute_bounds isMinute
      obtain ⟨inRest, -⟩ := strrchr_some cut
      split at read
      · obtain ⟨hours, isHour, read⟩ := Option.bind_eq_some_iff.1 read
        obtain ⟨rfl, rfl⟩ := Prod.mk.inj (Option.some.inj read)
        obtain ⟨high, low⟩ := readHour_bounds isHour
        refine ⟨by linarith, .inl rfl, fun plain => ?_⟩
        linarith [low (mt (inRest _) plain)]
      · next first middle cut' =>
          obtain ⟨hours, isHour, read⟩ := Option.bind_eq_some_iff.1 read
          obtain ⟨dayRead, isDay, read⟩ := Option.bind_eq_some_iff.1 read
          obtain ⟨rfl, rfl⟩ := Prod.mk.inj (Option.some.inj read)
          obtain ⟨high, low⟩ := readHour_bounds isHour
          refine ⟨by linarith, .inr (readDay_mem isDay), fun plain => ?_⟩
          linarith [low (mt (fun isIn => inRest _ ((strrchr_some cut').2 _ isIn)) plain)]

/-! ### The windows of all days -/

theorem daily_adds (week : Week) (low : 0 ≤ ohour) (high : chour < 24) (proper : ohour < chour) :
    Adds week (weekDays.foldl (fun week i => insertDay week i ohour chour) week)
      fun day hour => day ∈ weekDays ∧ CyclicIco ohour chour hour := by
  have bounded := (bounded_of_read low high).1
  refine (Adds.foldl (fun week i _ => insertDay_adds week i bounded) week).congr ?_
  simp [CyclicIco, proper, proper.not_gt]

theorem overnight_adds (week : Week) (low : 0 ≤ ohour) (high : chour < 24) (wraps : chour < ohour) :
    Adds week
      (weekDays.foldl (fun week i => insertDay (insertDay week i ohour 25) i (-1) chour) week)
      fun day hour => day ∈ weekDays ∧ CyclicIco ohour chour hour := by
  obtain ⟨-, evening, morning⟩ := bounded_of_read low high
  refine (Adds.foldl (fun week i _ =>
    (insertDay_adds week i evening).trans (insertDay_adds _ i morning)) week).congr ?_
  intro day hour inDay
  have toEnd : hour < 25 := by linarith [inDay.2]
  have fromStart : -1 ≤ hour := by linarith [inDay.1]
  simp [CyclicIco, wraps, wraps.not_gt, toEnd, fromStart, ← and_or_left]

/-! ### The windows over several days -/

def DayBetween (oday cday day : Nat) : Prop :=
  oday < cday ∧ oday < day ∧ day < cday ∨ cday < oday ∧ (oday < day ∨ day < cday)

instance (oday cday day : Nat) : Decidable (DayBetween oday cday day) :=
  inferInstanceAs (Decidable (_ ∨ _))

theorem daysLoop_subset :
    ∀ oday ∈ weekDays, ∀ cday ∈ weekDays, ∀ day ∈ daysLoop oday cday 8 oday, day ∈ weekDays := by
  decide +kernel

theorem mem_daysLoop_iff :
    ∀ oday ∈ weekDays, ∀ cday ∈ weekDays, oday ≠ cday → ∀ day ∈ weekDays,
      (day ∈ daysLoop oday cday 8 oday ↔ day = oday ∨ day = cday ∨ DayBetween oday cday day) := by
  decide +kernel

theorem cyclicIco_days (ne : oday ≠ cday) :
    CyclicIco (toLex (oday, ohour)) (toLex (cday, chour)) (toLex (day, hour)) ↔
      day = oday ∧ ohour ≤ hour ∨ day = cday ∧ hour < chour ∨ DayBetween oday cday day := by
  simp only [CyclicIco, DayBetween, Prod.Lex.toLex_lt_toLex, Prod.Lex.toLex_le_toLex]
  -- only the order of the days is left, with the two comparisons of hours as they stand
  grind

theorem insertSpan_adds (week : Week) (i : Nat) (low : 0 ≤ ohour) (high : chour < 24) :
    Adds week (insertSpan oday cday ohour chour week i) fun day hour =>
      day = i ∧ (if i = oday then ohour ≤ hour else if i = cday then hour < chour else True) := by
  unfold insertSpan
  split_ifs with opens closes
  · refine (insertDay_adds week i (bounded_of_read low high).2.1).congr ?_
    intro day hour inDay
    have toEnd : hour < 25 := by linarith [inDay.2]
    simp [toEnd]
  · refine (insertDay_adds week i (bounded_of_read low high).2.2).congr ?_
    intro day hour inDay
    have fromStart : -1 ≤ hour := by linarith [inDay.1]
    simp [fromStart]
  · refine (insertDay_adds week i ⟨le_rfl, le_rfl⟩).congr ?_
    intro day hour inDay
    have fromStart : -1 ≤ hour := by linarith [inDay.1]
    have toEnd : hour < 25 := by linarith [inDay.2]
    simp [fromStart, toEnd]

theorem span_adds (week : Week) (opens : oday ∈ weekDays) (closes : cday ∈ weekDays)
    (ne : oday ≠ cday) (low : 0 ≤ ohour) (high : chour < 24) :
    Adds week ((daysLoop oday cday 8 oday).foldl (insertSpan oday cday ohour chour) week)
      fun day hour => day ∈ weekDays ∧
        CyclicIco (toLex (oday, ohour)) (toLex (cday, chour)) (toLex (day, hour)) := by
  refine (Adds.foldl (fun week i _ => insertSpan_adds week i low high) week).congr ?_
  intro day hour _
  rw [cyclicIco_days ne]
  constructor
  · rintro ⟨i, mem, rfl, times⟩
    have inWeek := daysLoop_subset oday opens cday closes day mem
    refine ⟨inWeek, ?_⟩
    rcases (mem_daysLoop_iff oday opens cday closes ne day inWeek).1 mem with isOpen | isClose | mid
    · exact .inl ⟨isOpen, by simpa [isOpen] using times⟩
    · subst isClose
      exact .inr (.inl ⟨rfl, by simpa [ne.symm] using times⟩)
    · exact .inr (.inr mid)
  · rintro ⟨inWeek, times⟩
    have mem := mem_daysLoop_iff oday opens cday closes ne day inWeek
    rcases times with ⟨rfl, from_⟩ | ⟨rfl, upTo⟩ | mid
    · exact ⟨day, mem.2 (.inl rfl), rfl, by simpa using from_⟩
    · exact ⟨day, mem.2 (.inr (.inl rfl)), rfl, by simpa [ne.symm] using upTo⟩
    · refine ⟨day, mem.2 (.inr (.inr mid)), rfl, ?_⟩
      have notOpen : day ≠ oday := by unfold DayBetween at mid; omega
      have notClose : day ≠ cday := by unfold DayBetween at mid; omega
      simp [notOpen, notClose]

/-! ### Adding windows -/

theorem cyclicIco_self {α : Type} [LinearOrder α] (start point : α) :
    ¬CyclicIco start start point := by
  simp [CyclicIco]

theorem never_adds (week : Week) (i : Nat) : Adds week (insertDay week i 25 25) fun _ _ => False :=
  (insertDay_adds week i ⟨by norm_num, le_rfl⟩).congr fun _ _ _ => by simp

theorem sameDay_adds (week : Week) (opens : oday ∈ weekDays) (low : 0 ≤ ohour) (high : chour < 24)
    (proper : ohour < chour) :
    Adds week (insertDay week oday ohour chour) fun day hour => day ∈ weekDays ∧
      CyclicIco (toLex (oday, ohour)) (toLex (oday, chour)) (toLex (day, hour)) := by
  refine (insertDay_adds week oday (bounded_of_read low high).1).congr ?_
  intro day hour _
  simp only [CyclicIco, Prod.Lex.toLex_lt_toLex, Prod.Lex.toLex_le_toLex, Set.mem_Ico]
  constructor
  · rintro ⟨rfl, inside⟩
    exact ⟨opens, .inl (by simpa [proper] using inside)⟩
  · grind

theorem WordCovers.iff {wordpair sp : List Char} {ohour chour : Rat}
    (cut : strchr '-' wordpair = some (word, sp)) (opening : parseTime word = some (ohour, oday))
    (closing : parseTime sp = some (chour, cday)) {hour : Rat} :
    WordCovers wordpair day hour ↔ InWindow ohour oday chour cday day hour := by
  constructor
  · rintro ⟨_, _, _, _, _, _, cut', opening', closing', inside⟩
    cases cut.symm.trans cut'
    cases opening.symm.trans opening'
    cases closing.symm.trans closing'
    exact inside
  · exact fun inside => ⟨_, _, _, _, _, _, cut, opening, closing, inside⟩

theorem addWindow_adds {wordpair : List Char} (accepted : addWindow wordpair week = .ok week') :
    Adds week week' fun day hour => day ∈ weekDays ∧ WordCovers wordpair day hour := by
  unfold addWindow at accepted
  split at accepted
  · cases accepted
  next word sp cut =>
  split at accepted
  case h_2 => cases accepted
  next chour cday ohour oday closing opening =>
  obtain ⟨high, closes, -⟩ := parseTime_bounds closing
  obtain ⟨-, opens, low⟩ := parseTime_bounds opening
  replace low := low (strchr_some cut).1
  simp only [WordCovers.iff cut opening closing]
  by_cases ambiguous : (oday = 0 ∨ cday = 0) ∧ oday ≠ cday
  · rw [if_pos ambiguous] at accepted
    cases accepted
  rw [if_neg ambiguous] at accepted
  by_cases daily : oday = 0
  · simp only [InWindow, if_pos daily] at accepted ⊢
    rcases lt_trichotomy ohour chour with proper | rfl | wraps
    · rw [if_neg proper.ne] at accepted
      simp only [gt_iff_lt, if_neg proper.not_gt] at accepted
      cases accepted
      exact daily_adds week low high proper
    · simp only [if_true, gt_iff_lt, lt_self_iff_false, if_false] at accepted
      cases accepted
      refine (Adds.foldl (fun week i _ => never_adds week i) week).congr fun day hour _ => ?_
      simp [cyclicIco_self]
    · rw [if_neg wraps.ne'] at accepted
      simp only [gt_iff_lt, if_pos wraps] at accepted
      cases accepted
      exact overnight_adds week low high wraps
  · simp only [InWindow, if_neg daily] at accepted ⊢
    replace opens := opens.resolve_left daily
    replace closes := closes.resolve_left fun zero => ambiguous ⟨.inr zero, by omega⟩
    by_cases same : oday = cday
    · subst same
      rw [if_pos rfl] at accepted
      rcases lt_trichotomy ohour chour with proper | rfl | wraps
      · simp only [gt_iff_lt, if_neg proper.not_gt, if_neg proper.ne] at accepted
        cases accepted
        exact ((sameDay_adds week opens low high proper).trans (closeDays_adds _)).congr
          fun _ _ _ => by simp
      · simp only [gt_iff_lt, lt_self_iff_false, if_true, if_false] at accepted
        cases accepted
        exact ((never_adds week oday).trans (closeDays_adds _)).congr
          fun _ _ _ => by simp [cyclicIco_self]
      · rw [if_pos wraps] at accepted
        cases accepted
    · rw [if_neg same] at accepted
      cases accepted
      exact ((span_adds week opens closes same low high).trans (closeDays_adds _)).congr
        fun _ _ _ => by simp

def emptyWeek : Week := fun _ => []

def addWindows (words : List (List Char)) : Except WindowError Week :=
  words.foldlM (fun week word => addWindow word week) emptyWeek

theorem addWindows_adds {words : List (List Char)}
    (accepted : words.foldlM (fun week word => addWindow word week) week = .ok week') :
    Adds week week'
      fun day hour => day ∈ weekDays ∧ ∃ word ∈ words, WordCovers word day hour := by
  induction words generalizing week with
  | nil =>
    cases accepted
    exact (Adds.refl week').congr fun _ _ _ => by simp
  | cons word words ih =>
    rw [List.foldlM_cons] at accepted
    cases first : addWindow word week with
    | error e => simp [first, bind, Except.bind] at accepted
    | ok week₁ =>
      simp only [first, bind, Except.bind] at accepted
      refine ((addWindow_adds first).trans (ih accepted)).congr fun day hour _ => ?_
      simp [← and_or_left]

/-- After any accepted windows a point of the week lies in a stored window of its day
exactly when it lies in one of them, and the stored windows of a day are disjoint. -/
theorem addWindows_union (words : List (List Char)) (week : Week)
    (accepted : addWindows words = .ok week) :
    (∀ day ∈ weekDays, ∀ hour, IsHour hour →
      (Covered (week day) hour ↔ ∃ word ∈ words, WordCovers word day hour)) ∧
    ∀ day, (week day).Pairwise fun w v => Disjoint w.times v.times := by
  have adds := addWindows_adds accepted
  refine ⟨fun day inWeek hour inDay => ?_, fun day => ?_⟩
  · rw [adds.covered day hour inDay]
    simp [emptyWeek, Covered, inWeek]
  · have start : ∀ day, Stored (emptyWeek day) := fun _ => ⟨by simp [emptyWeek], .nil⟩
    exact (adds.stored start day).apart.imp Apart.disjoint

def eveningFirst : List (List Char) := ["20:00-21:00".toList, "8:00-9:00".toList]

theorem eveningFirst_stored :
    (addWindows eveningFirst).toOption.map (· 1) = some [⟨20, 21⟩, ⟨8, 9⟩] := by
  decide +kernel

theorem eveningFirst_accepted :
    ∃ week, addWindows eveningFirst = .ok week ∧ week 1 = [⟨20, 21⟩, ⟨8, 9⟩] := by
  obtain ⟨week, isOk, first⟩ := Option.map_eq_some_iff.1 eveningFirst_stored
  cases run : addWindows eveningFirst with
  | error e => simp [run, Except.toOption] at isOk
  | ok week' =>
    obtain rfl : week' = week := by simpa [run, Except.toOption] using isOk
    exact ⟨week', rfl, first⟩

theorem addWindows_union_eveningFirst :
    ∃ week, addWindows eveningFirst = .ok week ∧ ∀ hour, IsHour hour →
      (Covered (week 1) hour ↔ ∃ word ∈ eveningFirst, WordCovers word 1 hour) := by
  obtain ⟨week, accepted, -⟩ := eveningFirst_accepted
  exact ⟨week, accepted, (addWindows_union eveningFirst week accepted).1 1 (by decide)⟩

/-- They are stored as they came. -/
theorem eveningFirst_not_sorted :
    ∃ week, addWindows eveningFirst = .ok week ∧
      ¬(week 1).Pairwise fun w v => w.opentime ≤ v.opentime := by
  obtain ⟨week, accepted, first⟩ := eveningFirst_accepted
  refine ⟨week, accepted, ?_⟩
  rw [first]
  decide +kernel

end Jhlava.Windows
