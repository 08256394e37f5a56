import Jhlava.LimMasterKept

/-! The candidate list of a load adjustment request. The loop that looks for a host in
the list compares it with the slot behind the last candidate. -/
namespace Jhlava.Lim
open List

variable {n : Nat} (conf : LimConf n) (memory : Nat → Option (Fin n))

/-- The first `j` entries of `candidates` and the `use` of the hosts, a `short`. -/
structure CandList (n : Nat) where
  candidates : List (Fin n)
  use : Fin n → Int

/-- `candidates[j]` before it is written: `initCandList` clears 256 slots, the slots behind
them hold what the memory held. -/
def slotBehind (j : Nat) : Option (Fin n) := if j < 256 then none else memory j

def addUse (s : CandList n) (candidate : Fin n) (numtask : Int) : CandList n :=
  let j := s.candidates.length
  let k := ((List.range j).find? fun _ => slotBehind memory j = some candidate).getD j
  if k = j then ⟨s.candidates ++ [candidate], Function.update s.use candidate (toInt16 numtask)⟩
  else { s with
    use := fun h => if s.candidates[k]? = some h then toInt16 (s.use h + numtask) else s.use h }

/-- One turn of the loop over `placeInfo`. -/
def addPlace (s : CandList n) (placeInfo : List Char × Int) : CandList n :=
  match findHostbyList conf placeInfo.1 with
  | none => s
  | some candidate => addUse memory s candidate placeInfo.2

def loadadjReq (use : Fin n → Int) (placeInfo : List (List Char × Int)) : CandList n :=
  placeInfo.foldl (addPlace conf memory) ⟨[], use⟩

/-- The pairs that name a host of the cluster. -/
def knownPlaces (placeInfo : List (List Char × Int)) : List (Fin n × Int) :=
  placeInfo.filterMap fun p => (findHostbyList conf p.1).map (·, p.2)

def tasks (places : List (Fin n × Int)) (h : Fin n) : Int :=
  ((places.filter (·.1 = h)).map Prod.snd).sum

/-- Each host named is a candidate once, with the sum of its task counts. -/
def Adjusted (places : List (Fin n × Int)) (s : CandList n) : Prop :=
  ∀ h ∈ places.map Prod.fst, s.candidates.count h = 1 ∧ s.use h = tasks places h

variable {conf memory} {s : CandList n} {places : List (Fin n × Int)}

theorem loadadjReq_eq (use : Fin n → Int) (placeInfo : List (List Char × Int)) :
    loadadjReq conf memory use placeInfo =
      (knownPlaces conf placeInfo).foldl (fun s p => addUse memory s p.1 p.2) ⟨[], use⟩ := by
  unfold loadadjReq knownPlaces
  rw [foldl_filterMap]
  congr 1
  funext s p
  unfold addPlace
  cases findHostbyList conf p.1 with
  | none => rfl
  | some candidate => rfl

variable {h : Fin n}

theorem addUse_of_ne {numtask : Int} (free : slotBehind memory s.candidates.length ≠ some h) :
    addUse memory s h numtask =
      ⟨s.candidates ++ [h], Function.update s.use h (toInt16 numtask)⟩ := by
  have all : ((List.range s.candidates.length).find? fun _ =>
      slotBehind memory s.candidates.length = some h) = none := by
    simp [free]
  simp [addUse, all]

theorem addUse_of_eq {numtask : Int} (some_ : 0 < s.candidates.length)
    (same : slotBehind memory s.candidates.length = some h) :
    (addUse memory s h numtask).candidates = s.candidates := by
  have first : ((List.range s.candidates.length).find? fun _ =>
      slotBehind memory s.candidates.length = some h) = some 0 := by
    obtain ⟨j, long⟩ := Nat.exists_eq_succ_of_ne_zero some_.ne'
    rw [long, range_succ_eq_map, ← long]
    simp [same]
  simp [addUse, first, some_.ne]

theorem foldl_addUse (free : ∀ j, slotBehind memory j = none) :
    (places.foldl (fun s p => addUse memory s p.1 p.2) s).candidates =
      s.candidates ++ places.map Prod.fst := by
  induction places generalizing s with
  | nil => simp
  | cons p places ih =>
    rw [foldl_cons, ih, addUse_of_ne (by simp [free])]
    simp

theorem mem_foldl_addUse
    (mem : h ∈ (places.foldl (fun s p => addUse memory s p.1 p.2) s).candidates) :
    h ∈ s.candidates ∨ h ∈ places.map Prod.fst := by
  induction places generalizing s with
  | nil => exact .inl mem
  | cons p places ih =>
    rcases ih mem with old | new
    · by_cases other : slotBehind memory s.candidates.length = some p.1
      · by_cases some_ : 0 < s.candidates.length
        · rw [addUse_of_eq some_ other] at old
          exact .inl old
        · simp [slotBehind, Nat.eq_zero_of_not_pos some_] at other
      · dsimp only at old
        rw [addUse_of_ne other, mem_append, mem_singleton] at old
        exact old.imp_right fun same => by simp [same]
    · exact .inr (by simp_all)

theorem tasks_of_mem (once : (places.map Prod.fst).Nodup) {p : Fin n × Int} (mem : p ∈ places) :
    tasks places p.1 = p.2 := by
  induction places with
  | nil => cases mem
  | cons q places ih =>
    obtain ⟨new, once⟩ := nodup_cons.1 once
    rcases mem_cons.1 mem with rfl | mem
    · have none_ : places.filter (·.1 = p.1) = [] := by
        simp only [filter_eq_nil_iff, decide_eq_true_eq]
        intro q mem same
        exact new (same ▸ mem_map_of_mem mem)
      simp [tasks, none_]
    · have other : q.1 ≠ p.1 := fun same => new (same ▸ mem_map_of_mem mem)
      simpa [tasks, other] using ih once mem

theorem toInt16_eq_iff (x : Int) : toInt16 x = x ↔ -(2 ^ 15) ≤ x ∧ x < 2 ^ 15 := by
  unfold toInt16
  rw [Int.bmod_def]
  split <;> omega

/-- `use` of a host that is named once is its task count, stored in a `short`. -/
theorem foldl_addUse_short (few : s.candidates.length + places.length ≤ 256)
    (once : (places.map Prod.fst).Nodup) :
    (places.foldl (fun s p => addUse memory s p.1 p.2) s).candidates =
        s.candidates ++ places.map Prod.fst ∧
      ∀ h, (places.foldl (fun s p => addUse memory s p.1 p.2) s).use h =
        if h ∈ places.map Prod.fst then toInt16 (tasks places h) else s.use h := by
  induction places generalizing s with
  | nil => simp
  | cons p places ih =>
    obtain ⟨new, once⟩ := nodup_cons.1 once
    rw [length_cons] at few
    have free : slotBehind memory s.candidates.length ≠ some p.1 := by
      rw [slotBehind, if_pos (by omega)]
      exact nofun
    rw [foldl_cons, addUse_of_ne free]
    obtain ⟨candidates, use⟩ :=
      ih (s := ⟨s.candidates ++ [p.1], Function.update s.use p.1 (toInt16 p.2)⟩)
      (by simp only [length_append, length_singleton]; omega) once
    refine ⟨by rw [candidates]; simp, fun h => ?_⟩
    rw [use]
    by_cases here : h = p.1
    · subst here
      have all : ((p :: places).map Prod.fst).Nodup := nodup_cons.2 ⟨new, once⟩
      rw [tasks_of_mem all mem_cons_self]
      simp [new]
    · have skip : tasks (p :: places) h = tasks places h := by
        simp [tasks, Ne.symm here]
      simp only [map_cons, mem_cons, here, false_or, skip, ne_eq, not_false_eq_true,
        Function.update_of_ne]

theorem loadadjReq_adjusted_iff (use : Fin n → Int) (placeInfo : List (List Char × Int)) :
    (∀ memory, Adjusted (knownPlaces conf placeInfo) (loadadjReq conf memory use placeInfo)) ↔
      ((knownPlaces conf placeInfo).map Prod.fst).Nodup ∧
        (knownPlaces conf placeInfo).length ≤ 256 ∧
        ∀ p ∈ knownPlaces conf placeInfo, -(2 ^ 15) ≤ p.2 ∧ p.2 < 2 ^ 15 := by
  simp only [loadadjReq_eq]
  generalize knownPlaces conf placeInfo = places
  constructor
  · intro adjusted
    have once : (places.map Prod.fst).Nodup := by
      rw [nodup_iff_count_eq_one]
      intro h mem
      have count := (adjusted (fun _ => none) h mem).1
      rwa [foldl_addUse (by simp [slotBehind])] at count
    have few : places.length ≤ 256 := not_lt.1 fun many => ?_
    · refine ⟨once, few, fun p mem => ?_⟩
      have use := (adjusted (fun _ => none) p.1 (mem_map_of_mem mem)).2
      rw [(foldl_addUse_short (by simpa using few) once).2, if_pos (mem_map_of_mem mem),
        tasks_of_mem once mem] at use
      exact (toInt16_eq_iff _).1 use
    -- The memory happens to hold the host that comes 257th: it is not added.
    obtain ⟨before, ⟨h, numtask⟩, after, rfl, len⟩ :
        ∃ before p after, places = before ++ p :: after ∧ before.length = 256 := by
      refine ⟨places.take 256, places[256], places.drop 257, ?_, length_take_of_le many.le⟩
      rw [← drop_eq_getElem_cons many, take_append_drop]
    have count := (adjusted (fun j => if j = 256 then some h else none) h (by simp)).1
    have mem := one_le_count_iff.1 count.ge
    rw [map_append, nodup_append] at once
    obtain ⟨once, once', apart⟩ := once
    rw [foldl_append, foldl_cons] at mem
    generalize start : before.foldl _ _ = s at mem
    have first := start ▸ (foldl_addUse_short (s := ⟨[], use⟩) (by simp [len]) once).1
    have length : s.candidates.length = 256 := by simp [first, len]
    rcases mem_foldl_addUse mem with old | new
    · rw [addUse_of_eq (by omega) (by simp [slotBehind, length]), first] at old
      exact apart h (by simpa using old) h mem_cons_self rfl
    · exact (nodup_cons.1 once').1 new
  · rintro ⟨once, few, short⟩ memory h mem
    rw [(foldl_addUse_short (by simpa using few) once).1,
      (foldl_addUse_short (by simpa using few) once).2, if_pos mem]
    refine ⟨count_eq_one_of_mem once mem, ?_⟩
    obtain ⟨p, named, rfl⟩ := mem_map.1 mem
    rw [tasks_of_mem once named]
    exact (toInt16_eq_iff _).2 (short p named)

theorem namedTwice_not_adjusted :
    (loadadjReq defaultLimits (fun _ => none) (fun _ => 0)
      [("hosta".toList, 1), ("hosta".toList, 2)]).candidates = [0, 0] ∧
    (loadadjReq defaultLimits (fun _ => none) (fun _ => 0)
      [("hosta".toList, 1), ("hosta".toList, 2)]).use 0 = 2 ∧
    tasks (knownPlaces defaultLimits [("hosta".toList, 1), ("hosta".toList, 2)]) 0 = 3 := by
  refine ⟨?_, ?_, ?_⟩
  · decide
  · decide
  · decide

end Jhlava.Lim
