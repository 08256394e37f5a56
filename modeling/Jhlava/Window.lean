import Jhlava.DepMatch

/-! The time windows of window.c. The times are exact; a day of the week has the list of
its windows, which is empty for `NULL`. Opening at -1.0 and closing at 25.0 stand for the
ends of the day, and a window from 25.0 to 25.0 is never open. -/
namespace Jhlava.Windows
open CValues Dep

structure Window where
  opentime : Rat
  closetime : Rat
  deriving DecidableEq, Repr

/-- `week[1]` to `week[7]`. -/
abbrev Week := Nat → List Window

/-- The results -1, with what they log. -/
inductive WindowError where
  | badTimeExpression
  | ambiguousTime
  deriving DecidableEq, Repr

/-! ### Reading a window -/

/-- The texts before and behind the first `c`. -/
def strchr (c : Char) (s : List Char) : Option (List Char × List Char) :=
  if c ∈ s then some (s.takeWhile (· ≠ c), (s.dropWhile (· ≠ c)).tail) else none

/-- The texts before and behind the last `c`. -/
def strrchr (c : Char) (s : List Char) : Option (List Char × List Char) :=
  (strchr c s.reverse).map fun (behind, before) => (before.reverse, behind.reverse)

/-- The test that is made of every number, and `atof`. -/
def readHour (word : List Char) : Option Rat :=
  if !isint word || atoi word < 0 then none
  else if (strtol word).value > 23 then none
  else some (strtol word).value

def readMinute (word : List Char) : Option Rat :=
  if !isint word || atoi word < 0 then none
  else if atoi word > 59 then none
  else some (atoi word)

def readDay (word : List Char) : Option Nat :=
  if !isint word || atoi word < 0 then none
  else
    let day := if atoi word = 0 then 7 else atoi word
    if day < 1 ∨ day > 7 then none else some day.toNat

/-- `parse_time`: the hour with its minutes, and the day, which is 0 for every day. -/
def parseTime (word : List Char) : Option (Rat × Nat) :=
  match strrchr ':' word with
  | none => (readHour word).map fun hour => (hour, 0)
  | some (word, sp) => do
      let min ← readMinute sp
      match strrchr ':' word with
      | none =>
        let hour ← readHour word
        return (hour + min / 60, 0)
      | some (word, sp) =>
        let hour ← readHour sp
        let day ← readDay word
        return (hour + min / 60, day)

/-! ### Inserting a window -/

def openEnd (ohour : Rat) : Rat := if ohour ≤ 0 then -1 else ohour

def closeEnd (chour : Rat) : Rat := if chour ≥ 24 then 25 else chour

def mergeW (wp : Window) (ohour chour : Rat) : Bool × Window :=
  if wp.opentime = -1 ∧ wp.closetime = 25 then (true, wp)
  else if ohour = -1 ∧ chour = 25 then (true, ⟨-1, 25⟩)
  else if ohour = 25 ∧ chour = 25 then (true, wp)
  else if ohour ≥ chour then (true, wp)
  else if wp.opentime = 25 ∧ wp.closetime = 25 then (true, ⟨ohour, chour⟩)
  else if ¬wp.opentime > closeEnd chour ∧ ¬openEnd ohour > wp.closetime then
    (true, ⟨min (openEnd ohour) wp.opentime, max (closeEnd chour) wp.closetime⟩)
  else (false, wp)

/-- `new_wind`, and the assignment at the end of `insertW`. -/
def newWind (ohour chour : Rat) : Window := if ohour < chour then ⟨ohour, chour⟩ else ⟨25, 25⟩

/-- `insertW`. The windows behind the first are inserted again when one of them has been
merged, into a list that is shorter than this one; `fuel` is the length of the list. -/
def insertFuel : Nat → List Window → Rat → Rat → List Window
  | _, [], ohour, chour => [newWind ohour chour]
  | 0, ws, _, _ => ws
  | fuel + 1, w :: ws, ohour, chour =>
    if (w :: ws).any fun wp => (mergeW wp ohour chour).1 then
      (ws.map fun wp => (mergeW wp ohour chour).2).foldl
        (fun list wp => insertFuel fuel list wp.opentime wp.closetime) [(mergeW w ohour chour).2]
    else w :: ws ++ [newWind ohour chour]

def insertW (ws : List Window) (ohour chour : Rat) : List Window :=
  insertFuel ws.length ws ohour chour

/-! ### Windows of the week -/

/-- `insertW(&week[i], ohour, chour)`. -/
def insertDay (week : Week) (i : Nat) (ohour chour : Rat) : Week :=
  Function.update week i (insertW (week i) ohour chour)

def weekDays : List Nat := [1, 2, 3, 4, 5, 6, 7]

def closeDays (week : Week) : Week :=
  weekDays.foldl (fun week j => if week j = [] then insertDay week j 25 25 else week) week

/-- The days the last loop of `addWindow` comes to. -/
def daysLoop (oday cday : Nat) : Nat → Nat → List Nat
  | 0, _ => []
  | fuel + 1, i =>
    let i := if i = 8 then 1 else i
    if i ≠ oday ∧ i = cday then [i] else i :: daysLoop oday cday fuel (i + 1)

def insertSpan (oday cday : Nat) (ohour chour : Rat) (week : Week) (i : Nat) : Week :=
  if i = oday then insertDay week i ohour 25
  else if i = cday then insertDay week i (-1) chour
  else insertDay week i (-1) 25

def addWindow (wordpair : List Char) (week : Week) : Except WindowError Week :=
  match strchr '-' wordpair with
  | none => .error .badTimeExpression
  | some (word, sp) =>
    match parseTime sp, parseTime word with
    | some (chour, cday), some (ohour, oday) =>
      if (oday = 0 ∨ cday = 0) ∧ oday ≠ cday then .error .ambiguousTime
      else if oday = 0 then
        let (ohour, chour) := if ohour = chour then (25, 25) else (ohour, chour)
        if ohour > chour then
          .ok (weekDays.foldl (fun week i => insertDay (insertDay week i ohour 25) i (-1) chour)
            week)
        else .ok (weekDays.foldl (fun week i => insertDay week i ohour chour) week)
      else if oday = cday then
        if ohour > chour then .error .ambiguousTime
        else
          let (ohour, chour) := if ohour = chour then (25, 25) else (ohour, chour)
          .ok (closeDays (insertDay week oday ohour chour))
      else
        .ok (closeDays
          ((daysLoop oday cday 8 oday).foldl (insertSpan oday cday ohour chour) week))
    | _, _ => .error .badTimeExpression

end Jhlava.Windows
