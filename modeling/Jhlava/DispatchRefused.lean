import Jhlava.MbdDispatch

/-! A host refuses a job, mbd.policy.c: `dispatchToCandHost` asks the first host of the allocation
that `allocHosts` made of the exec candidates, and takes the first candidate off the list if the
host refuses. -/
namespace Jhlava.Mbd
open List

/-- `removeCandHost`, without the groups of candidates. -/
def removeCandHost (candPtr : List Cand) (i : Nat) : List Cand := candPtr.eraseIdx i

/-- The candidates of a job: one for each host, with the jobs that have slots to lend. -/
structure CandTable where
  slots : Slots
  distinct : (slots.candPtr.map Cand.hData).Nodup
  lends : ∀ c ∈ slots.candPtr, ∀ b ∈ c.backfilleeList.getD [], 0 < b.backfillSlots

/-- A round of `dispatchAJob` comes to the call of `dispatch_it`. -/
structure Asks (cf : Config) (c : DispCall) (sl : Slots) : Prop where
  avail : c.needs ≤ (getNumProcs cf c.now c.j sl).numAvailEligProc
  elig : 0 < (getNumProcs cf c.now c.j sl).numEligProc
  hosts : c.j.numProcessors ≤ (execHosts (getNumProcs cf c.now c.j sl).execCandPtr).length

/-- The host that is asked, `hPtr[0]`. -/
def askedFirst (cf : Config) (c : DispCall) (sl : Slots) : Option Nat :=
  (execHosts (getNumProcs cf c.now c.j sl).execCandPtr).head?

variable {cands : List Cand} {i k : Nat}

/-! ### The first host of the allocation -/

section Lead

variable {l : Limits} {cands : List Cand}

def hasAvail (cands : List Cand) (i : Nat) : Bool := decide (0 < (candAt cands i).numAvailSlots)

/-- An entry without slots, and without a slot available on its host. -/
structure Blank (cands : List Cand) (x : BackfillCand) : Prop where
  slots : x.numSlots = 0
  avail : x.numAvailSlots = 0
  none_ : (candAt cands x.indexInCandHostList).numAvailSlots = 0

/-- An entry with slots that are available on the host `i`. -/
structure Holds (cands : List Cand) (i : Nat) (x : BackfillCand) : Prop where
  host : x.indexInCandHostList = i
  slots : 0 < x.numSlots
  avail : 0 < x.numAvailSlots
  le : x.numAvailSlots ≤ (candAt cands i).numAvailSlots

/-- The first entry with slots is the one of the host `i`. -/
def Leads (cands : List Cand) (i : Nat) (xs : List BackfillCand) : Prop :=
  ∃ blanks x rest, xs = blanks ++ x :: rest ∧ (∀ b ∈ blanks, Blank cands b) ∧ Holds cands i x

variable {t : Int} {xs : List BackfillCand}

theorem Leads.append (leads : Leads cands i xs) (more : List BackfillCand) :
    Leads cands i (xs ++ more) := by
  obtain ⟨blanks, x, rest, rfl, blank, holds⟩ := leads
  exact ⟨blanks, x, rest ++ more, by simp, blank, holds⟩

theorem Leads.cons {b : BackfillCand} (blank : Blank cands b) (leads : Leads cands i xs) :
    Leads cands i (b :: xs) := by
  obtain ⟨blanks, x, rest, rfl, blank', holds⟩ := leads
  exact ⟨b :: blanks, x, rest, rfl, forall_mem_cons.mpr ⟨blank, blank'⟩, holds⟩

theorem bookBackfillee_leads {b : CandBackfillee} {slotsToUse : Int} (nonneg : 0 ≤ slotsToUse)
    (leads : Leads cands i xs) :
    Leads cands i (bookBackfillee k b (candAt cands k).numAvailSlots slotsToUse xs).2 := by
  obtain ⟨blanks, x, rest, rfl, blank, holds⟩ := leads
  induction blanks with
  | nil =>
    rw [nil_append, bookBackfillee]
    split
    · rename_i here
      refine ⟨[], _, rest, rfl, by simp, ⟨holds.host, ?_, ?_, ?_⟩⟩
      all_goals
        have slots := holds.avail
        have most := holds.le
        rw [← holds.host, here] at most
        first | (dsimp only; omega) | (rw [← holds.host, here]; dsimp only; omega)
    · exact ⟨[], x, _, rfl, by simp, holds⟩
  | cons b' blanks ih =>
    obtain ⟨here, later⟩ := forall_mem_cons.mp blank
    rw [cons_append, bookBackfillee]
    split
    · rename_i same
      have none_ := here.none_
      rw [same] at none_
      refine Leads.cons ⟨?_, ?_, here.none_⟩ ⟨blanks, x, rest, rfl, later, holds⟩
      all_goals
        have zero := here.avail
        dsimp only
        omega
    · exact (ih later).cons here

theorem bookBackfillee_blank {k : Nat} {b : CandBackfillee} {xs : List BackfillCand}
    (none_ : (candAt cands k).numAvailSlots = 0) (blank : ∀ x ∈ xs, Blank cands x) :
    (bookBackfillee k b (candAt cands k).numAvailSlots 0 xs).1 = 0 ∧
      ∀ x ∈ (bookBackfillee k b (candAt cands k).numAvailSlots 0 xs).2, Blank cands x := by
  induction xs with
  | nil =>
    refine ⟨rfl, ?_⟩
    intro x mem
    rw [bookBackfillee, mem_singleton] at mem
    subst mem
    exact ⟨rfl, rfl, none_⟩
  | cons x xs ih =>
    obtain ⟨here, later⟩ := forall_mem_cons.mp blank
    rw [bookBackfillee]
    split
    · refine ⟨?_, forall_mem_cons.mpr ⟨⟨?_, ?_, here.none_⟩, later⟩⟩
      all_goals simp [none_, here.avail]
    · exact ⟨(ih later).1, forall_mem_cons.mpr ⟨here, (ih later).2⟩⟩

theorem bookBackfillee_first {b : CandBackfillee} {slotsToUse : Int} (pos : 0 < slotsToUse)
    (le : slotsToUse ≤ (candAt cands k).numAvailSlots) (blank : ∀ x ∈ xs, Blank cands x) :
    (bookBackfillee k b (candAt cands k).numAvailSlots slotsToUse xs).1 = slotsToUse ∧
      Leads cands k (bookBackfillee k b (candAt cands k).numAvailSlots slotsToUse xs).2 := by
  induction xs with
  | nil => exact ⟨rfl, [], _, [], rfl, by simp, ⟨rfl, pos, pos, le⟩⟩
  | cons x xs ih =>
    obtain ⟨here, later⟩ := forall_mem_cons.mp blank
    have other : x.indexInCandHostList ≠ k := by
      rintro rfl
      have none_ := here.none_
      omega
    rw [bookBackfillee, if_neg other]
    exact ⟨(ih later).1, (ih later).2.cons here⟩

theorem takeBackfillees_leads {bs : List (Nat × CandBackfillee)} (leads : Leads cands i xs) :
    Leads cands i (takeBackfillees l cands t xs bs).2 := by
  induction bs generalizing t xs with
  | nil => exact leads
  | cons b bs ih =>
    rw [takeBackfillees]
    split
    · exact ih (bookBackfillee_leads (by omega) leads)
    · exact leads

theorem takeBackfillees_first (avail : 0 < l.numAvailSlots) (max : 0 < l.maxNumProcessors)
    {xs : List BackfillCand} (blank : ∀ x ∈ xs, Blank cands x) {bs : List (Nat × CandBackfillee)}
    (lends : ∀ b ∈ bs, 0 < b.2.backfillSlots) :
    (∀ b ∈ bs.find? fun b => hasAvail cands b.1,
      Leads cands b.1 (takeBackfillees l cands 0 xs bs).2) ∧
    ((bs.find? fun b => hasAvail cands b.1) = none →
      (takeBackfillees l cands 0 xs bs).1 = 0 ∧
        ∀ x ∈ (takeBackfillees l cands 0 xs bs).2, Blank cands x) := by
  induction bs generalizing xs with
  | nil => exact ⟨by simp, fun _ => ⟨rfl, blank⟩⟩
  | cons b bs ih =>
    obtain ⟨some_, later⟩ := forall_mem_cons.mp lends
    rw [takeBackfillees, if_pos ⟨avail, max⟩]
    dsimp only
    cases here : hasAvail cands b.1 with
    | true =>
      have pos := of_decide_eq_true here
      rw [List.find?_cons, here]
      refine ⟨?_, by simp⟩
      rintro b' ⟨⟩
      exact takeBackfillees_leads (bookBackfillee_first (by omega) (by omega) blank).2
    | false =>
      have none_ : (candAt cands b.1).numAvailSlots = 0 :=
        Nat.eq_zero_of_not_pos (of_decide_eq_false here)
      have zero : min ((candAt cands b.1).numAvailSlots : Int)
          (min (b.2.backfillSlots : Int) (l.maxNumProcessors - 0)) = 0 := by omega
      obtain ⟨still, blank'⟩ := @bookBackfillee_blank cands b.1 b.2 xs none_ blank
      rw [List.find?_cons, here, zero, still]
      exact ih blank' later

theorem fillBackfillCands_leads (leads : Leads cands i xs) :
    Leads cands i (fillBackfillCands l cands t xs).2 := by
  obtain ⟨blanks, x, rest, rfl, blank, holds⟩ := leads
  induction blanks generalizing t with
  | nil =>
    rw [nil_append, fillBackfillCands]
    split
    · refine ⟨[], _, _, rfl, by simp, ?_⟩
      split
      · exact holds
      · have slots := holds.avail
        have most := holds.le
        rw [← holds.host] at most ⊢
        exact ⟨rfl, by dsimp only; omega, by dsimp only; omega, by dsimp only; omega⟩
    · exact ⟨[], x, rest, rfl, by simp, holds⟩
  | cons b blanks ih =>
    obtain ⟨here, later⟩ := forall_mem_cons.mp blank
    rw [cons_append, fillBackfillCands]
    split
    · have none_ := here.none_
      have zero := here.avail
      dsimp only
      rw [if_pos (by omega)]
      exact (ih later).cons here
    · exact ⟨b :: blanks, x, rest, rfl, blank, holds⟩

theorem fillBackfillCands_blank (blank : ∀ x ∈ xs, Blank cands x) :
    fillBackfillCands l cands 0 xs = (0, xs) := by
  induction xs with
  | nil => rfl
  | cons x xs ih =>
    obtain ⟨here, later⟩ := forall_mem_cons.mp blank
    rw [fillBackfillCands]
    split
    · have none_ := here.none_
      have zero := here.avail
      have unfilled : min (((candAt cands x.indexInCandHostList).numAvailSlots : Int) -
          x.numAvailSlots) (l.maxNumProcessors - 0) = 0 := by omega
      dsimp only
      rw [if_pos unfilled, unfilled, Int.add_zero, ih later]
    · rfl

variable {cs : List (Cand × Nat)}

theorem addAvailCands_leads (leads : Leads cands i xs) :
    Leads cands i (addAvailCands l t xs cs).2 := by
  induction cs generalizing t xs with
  | nil => exact leads
  | cons c cs ih =>
    rw [addAvailCands]
    split
    · split
      · exact ih leads
      · exact ih (leads.append _)
    · exact leads

theorem addAvailCands_first (avail : 0 < l.numAvailSlots) (max : 0 < l.maxNumProcessors)
    (blank : ∀ x ∈ xs, Blank cands x) (at_ : ∀ c ∈ cs, candAt cands c.2 = c.1) :
    (∀ c ∈ cs.find? fun c => hasAvail cands c.2, Leads cands c.2 (addAvailCands l 0 xs cs).2) ∧
    ((cs.find? fun c => hasAvail cands c.2) = none → (addAvailCands l 0 xs cs).1 = 0) := by
  induction cs with
  | nil => exact ⟨by simp, fun _ => rfl⟩
  | cons c cs ih =>
    obtain ⟨here, later⟩ := forall_mem_cons.mp at_
    rw [addAvailCands, if_pos ⟨avail, max⟩, List.find?_cons]
    cases slot : hasAvail cands c.2 with
    | true =>
      have pos : 0 < (candAt cands c.2).numAvailSlots := of_decide_eq_true slot
      have absent : ¬ (candHostInBackfillCandList xs c.2 = true ∨ c.1.numAvailSlots = 0) := by
        rw [candHostInBackfillCandList, any_eq_true, ← here]
        rintro (⟨x, mem, eq⟩ | none_)
        · have none_ := (blank x mem).none_
          rw [of_decide_eq_true eq] at none_
          omega
        · omega
      rw [if_neg absent]
      refine ⟨?_, by simp⟩
      rintro c' ⟨⟩
      refine addAvailCands_leads ⟨xs, _, [], rfl, blank, rfl, ?_, ?_, ?_⟩
      all_goals
        rw [← here]
        dsimp only
        omega
    | false =>
      have none_ : (candAt cands c.2).numAvailSlots = 0 :=
        Nat.eq_zero_of_not_pos (of_decide_eq_false slot)
      rw [if_pos (Or.inr (here ▸ none_))]
      exact ih later

def firstAvail (cands : List Cand) : Option Nat :=
  (List.range cands.length).find? (hasAvail cands)

/-- The first host that `backfillAvail` takes: the one of the first backfillee, or the first
candidate where there is none. -/
def firstTaken (cands : List Cand) (sorted : List (Nat × CandBackfillee)) : Option Nat :=
  ((sorted.map Prod.fst).find? (hasAvail cands)).or (firstAvail cands)

theorem backfillAvail_idle (sorted : List (Nat × CandBackfillee))
    (idle : ¬ (0 < l.numAvailSlots ∧ 0 < l.maxNumProcessors)) :
    (backfillAvail l cands sorted).1 = 0 := by
  have taken : takeBackfillees l cands 0 [] sorted = (0, []) := by
    cases sorted with
    | nil => rfl
    | cons b bs => rw [takeBackfillees, if_neg idle]
  rw [backfillAvail, taken]
  change (addAvailCands l 0 [] cands.zipIdx).1 = 0
  cases cands.zipIdx with
  | nil => rfl
  | cons c cs => rw [addAvailCands, if_neg idle]

theorem backfillAvail_first {sorted : List (Nat × CandBackfillee)}
    (lends : ∀ b ∈ sorted, 0 < b.2.backfillSlots) (some_ : 0 < (backfillAvail l cands sorted).1) :
    ∃ i, firstTaken cands sorted = some i ∧ Leads cands i (backfillAvail l cands sorted).2 := by
  by_cases busy : 0 < l.numAvailSlots ∧ 0 < l.maxNumProcessors
  · have first := @takeBackfillees_first l cands busy.1 busy.2 [] (by simp) sorted lends
    rw [firstTaken, List.find?_map, Function.comp_def]
    cases found : sorted.find? fun b => hasAvail cands b.1 with
    | some b =>
      exact ⟨b.1, rfl, addAvailCands_leads (fillBackfillCands_leads (first.1 b found))⟩
    | none =>
      obtain ⟨zero, blank⟩ := first.2 found
      have at_ : ∀ c ∈ cands.zipIdx, candAt cands c.2 = c.1 := fun c mem => (candAt_zipIdx mem).2
      have next := addAvailCands_first busy.1 busy.2 blank at_
      have indexes : firstAvail cands =
          (cands.zipIdx.find? fun c => hasAvail cands c.2).map Prod.snd := by
        rw [firstAvail, range_eq_range', ← zipIdx_map_snd 0 cands, List.find?_map]
        rfl
      rw [backfillAvail, zero, fillBackfillCands_blank blank] at some_ ⊢
      rw [Option.map_none, indexes]
      cases here : cands.zipIdx.find? fun c => hasAvail cands c.2 with
      | some c => exact ⟨c.2, rfl, next.1 c here⟩
      | none => exact absurd some_ (by rw [next.2 here]; exact lt_irrefl 0)
  · exact absurd some_ (by rw [backfillAvail_idle sorted busy]; exact lt_irrefl 0)

theorem Leads.execHosts (leads : Leads cands i xs) :
    (execHosts (xs.map (execOf cands))).head? = some (candAt cands i).hData := by
  obtain ⟨blanks, x, rest, rfl, blank, holds⟩ := leads
  induction blanks with
  | nil =>
    have pos : x.numSlots.toNat = (x.numSlots.toNat - 1) + 1 := by
      have slots := holds.slots
      omega
    rw [nil_append, map_cons, execHosts_cons, execOf, pos, replicate_succ, holds.host]
    rfl
  | cons b blanks ih =>
    obtain ⟨here, later⟩ := forall_mem_cons.mp blank
    rw [cons_append, map_cons, execHosts_cons, execOf, here.slots]
    exact ih later

theorem firstAvail_cons (c : Cand) (cs : List Cand) :
    firstAvail (c :: cs) =
      if 0 < c.numAvailSlots then some 0 else (firstAvail cs).map (· + 1) := by
  rw [firstAvail, length_cons, range_succ_eq_map, List.find?_cons, List.find?_map]
  by_cases pos : 0 < c.numAvailSlots
  · rw [show hasAvail (c :: cs) 0 = true from decide_eq_true pos, if_pos pos]
  · rw [show hasAvail (c :: cs) 0 = false from decide_eq_false pos, if_neg pos]
    rfl

theorem takeAvail_first (cands : List Cand) (some_ : 0 < (takeAvail l 0 cands).1) :
    ∃ i, firstAvail cands = some i ∧
      (execHosts (takeAvail l 0 cands).2).head? = some (candAt cands i).hData := by
  induction cands with
  | nil => exact absurd some_ (lt_irrefl 0)
  | cons c cs ih =>
    rw [takeAvail] at some_ ⊢
    split at some_
    · rename_i busy
      rw [if_pos busy, execHosts_cons, firstAvail_cons]
      by_cases pos : 0 < c.numAvailSlots
      · have some_slot : (min (min (c.numAvailSlots : Int) (l.maxNumProcessors - 0))
            (l.numAvailSlots - 0)).toNat ≠ 0 := by omega
        rw [if_pos pos]
        refine ⟨0, rfl, ?_⟩
        rw [List.head?_append_of_ne_nil _ (by simpa using some_slot), List.head?_replicate,
          if_neg some_slot]
        rfl
      · have none_ : min (min (c.numAvailSlots : Int) (l.maxNumProcessors - 0))
            (l.numAvailSlots - 0) = 0 := by omega
        rw [none_] at some_
        obtain ⟨i, first, head⟩ := ih some_
        rw [if_neg pos, none_, first]
        exact ⟨i + 1, rfl, head⟩
    · exact absurd some_ (lt_irrefl 0)

end Lead

/-! ### The order of the backfillees -/

section Order

variable {cf : Config} {now : Int} {jp : JData} {cands : List Cand}

def Sooner (diff : Nat × CandBackfillee → Int) (a b : Nat × CandBackfillee) : Prop :=
  diff a < diff b ∨ diff a = diff b ∧ a.1 ≤ b.1

theorem insertIntoSortedBackfilleeList_sorted {diff : Nat × CandBackfillee → Int}
    {item : Nat × CandBackfillee} {entries : List (Nat × CandBackfillee)}
    (sorted : entries.Pairwise (Sooner diff)) (earlier : ∀ e ∈ entries, e.1 ≤ item.1) :
    (insertIntoSortedBackfilleeList diff item entries).Pairwise (Sooner diff) := by
  induction entries with
  | nil => exact pairwise_singleton _ _
  | cons e entries ih =>
    obtain ⟨before, rest⟩ := pairwise_cons.mp sorted
    obtain ⟨here, later⟩ := forall_mem_cons.mp earlier
    rw [insertIntoSortedBackfilleeList]
    split
    · rename_i less
      refine pairwise_cons.mpr ⟨forall_mem_cons.mpr ⟨Or.inl less, ?_⟩, sorted⟩
      intro b mem
      have behind := before b mem
      unfold Sooner at behind ⊢
      omega
    · refine pairwise_cons.mpr ⟨?_, ih rest later⟩
      intro b mem
      rcases mem_insertIntoSortedBackfilleeList mem with rfl | mem
      · unfold Sooner
        omega
      · exact before b mem

theorem insertIntoSortedBackfilleeList_perm (diff : Nat × CandBackfillee → Int)
    (item : Nat × CandBackfillee) (entries : List (Nat × CandBackfillee)) :
    (insertIntoSortedBackfilleeList diff item entries).Perm (item :: entries) := by
  induction entries with
  | nil => exact List.Perm.refl _
  | cons e entries ih =>
    rw [insertIntoSortedBackfilleeList]
    split
    · exact List.Perm.refl _
    · exact (ih.cons e).trans (List.Perm.swap item e entries)

theorem foldl_insertIntoSortedBackfilleeList (diff : Nat × CandBackfillee → Int)
    {items entries : List (Nat × CandBackfillee)} (sorted : entries.Pairwise (Sooner diff))
    (ordered : items.Pairwise fun a b => a.1 ≤ b.1)
    (earlier : ∀ e ∈ entries, ∀ item ∈ items, e.1 ≤ item.1) :
    (items.foldl (fun es item => insertIntoSortedBackfilleeList diff item es) entries).Perm
        (items ++ entries) ∧
      (items.foldl (fun es item => insertIntoSortedBackfilleeList diff item es) entries).Pairwise
        (Sooner diff) := by
  induction items generalizing entries with
  | nil => exact ⟨List.Perm.refl _, sorted⟩
  | cons item items ih =>
    obtain ⟨first, rest⟩ := pairwise_cons.mp ordered
    have inserted := insertIntoSortedBackfilleeList_perm diff item entries
    have here : ∀ e ∈ entries, e.1 ≤ item.1 := fun e mem => earlier e mem item (by simp)
    obtain ⟨perm, pairs⟩ := @ih (insertIntoSortedBackfilleeList diff item entries)
      (insertIntoSortedBackfilleeList_sorted sorted here) rest (by
        intro e mem item' mem'
        rcases mem_insertIntoSortedBackfilleeList mem with rfl | mem
        · exact first item' mem'
        · exact earlier e mem item' (mem_cons_of_mem _ mem'))
    refine ⟨?_, pairs⟩
    calc (items.foldl (fun es item => insertIntoSortedBackfilleeList diff item es)
            (insertIntoSortedBackfilleeList diff item entries)).Perm
          (items ++ insertIntoSortedBackfilleeList diff item entries) := perm
      _ |>.Perm (items ++ item :: entries) := inserted.append_left items
      _ |>.Perm (item :: items ++ entries) := perm_middle

theorem mem_backfilleesOf {b : Nat × CandBackfillee} :
    b ∈ backfilleesOf cands ↔
      b.1 < cands.length ∧ b.2 ∈ (candAt cands b.1).backfilleeList.getD [] := by
  simp only [backfilleesOf, mem_flatMap, mem_map]
  constructor
  · rintro ⟨⟨c, i⟩, mem, b', mem', rfl⟩
    obtain ⟨lt, at_⟩ := candAt_zipIdx mem
    exact ⟨lt, at_ ▸ mem'⟩
  · rintro ⟨lt, mem⟩
    refine ⟨(candAt cands b.1, b.1), ?_, b.2, mem, rfl⟩
    rw [candAt_eq lt]
    exact mem_zipIdx_iff_getElem?.mpr (List.getElem?_eq_getElem lt)

theorem backfilleesOf_ordered : (backfilleesOf cands).Pairwise fun a b => a.1 ≤ b.1 := by
  refine pairwise_flatMap.mpr ⟨?_, ?_⟩
  · rintro ⟨c, i⟩ -
    exact pairwise_map.mpr (pairwise_of_forall fun _ _ => Nat.le_refl i)
  · have ordered : (cands.zipIdx.map Prod.snd).Pairwise (· ≤ ·) := by
      rw [zipIdx_map_snd]
      exact pairwise_le_range'
    refine (pairwise_map.mp ordered).imp ?_
    intro p q le x memX y memY
    obtain ⟨-, -, rfl⟩ := mem_map.mp memX
    obtain ⟨-, -, rfl⟩ := mem_map.mp memY
    exact le

theorem sortBackfillee_sorted :
    (sortBackfillee cf now jp cands).Perm (backfilleesOf cands) ∧
      (sortBackfillee cf now jp cands).Pairwise
        (Sooner fun b => startsAfter cf now jp (candAt cands b.1) b.2) := by
  have sorted := @foldl_insertIntoSortedBackfilleeList
    (fun b => startsAfter cf now jp (candAt cands b.1) b.2) (backfilleesOf cands) []
    List.Pairwise.nil backfilleesOf_ordered (by simp)
  rwa [append_nil] at sorted

def FirstSoonest (cf : Config) (now : Int) (jp : JData) (cands : List Cand) : Prop :=
  ∀ c ∈ cands, 0 < c.numAvailSlots → ∀ b ∈ c.backfilleeList.getD [],
    ∃ first ∈ cands.head?, ∃ b' ∈ first.backfilleeList.getD [],
      startsAfter cf now jp first b' ≤ startsAfter cf now jp c b

theorem sooner_of_find {α : Type} {R : α → α → Prop} {p : α → Bool} {l : List α} {a b : α}
    (sorted : l.Pairwise R) (found : l.find? p = some a) (mem : b ∈ l) (wanted : p b = true) :
    b = a ∨ R a b := by
  obtain ⟨-, before, behind, rfl, others⟩ := List.find?_eq_some_iff_append.mp found
  rcases mem_append.mp mem with mem | mem
  · exact absurd wanted (by simpa using others b mem)
  · refine (mem_cons.mp mem).imp_right fun mem => ?_
    exact (pairwise_cons.mp (pairwise_append.mp sorted).2.1).1 b mem

theorem hasAvail_lt (avail : hasAvail cands i = true) : i < cands.length := by
  by_contra past
  rw [hasAvail, candAt, getD_eq_getElem?_getD,
    List.getElem?_eq_none (Nat.le_of_not_lt past)] at avail
  exact absurd avail (by decide)

theorem hasAvail_zero_iff :
    hasAvail cands 0 = true ↔ ∃ first ∈ cands.head?, 0 < first.numAvailSlots := by
  cases cands with
  | nil => simp [hasAvail, candAt, noCand]
  | cons c cs => simp [hasAvail, candAt]

theorem firstAvail_zero_iff : firstAvail cands = some 0 ↔ hasAvail cands 0 = true := by
  constructor
  · exact List.find?_some
  · intro avail
    obtain ⟨n, eq⟩ := Nat.exists_eq_add_of_lt (hasAvail_lt avail)
    rw [firstAvail, eq, range_succ_eq_map, List.find?_cons, avail]

/-- The first backfillee with a slot available on its host is one of the first candidate. -/
theorem find_sortBackfillee_zero_iff (avail : hasAvail cands 0 = true) :
    (∀ b ∈ (sortBackfillee cf now jp cands).find? fun b => hasAvail cands b.1, b.1 = 0) ↔
      FirstSoonest cf now jp cands := by
  obtain ⟨perm, sorted⟩ := @sortBackfillee_sorted cf now jp cands
  have some_ : 0 < cands.length := hasAvail_lt avail
  have head : cands.head? = some (candAt cands 0) := by
    rw [candAt_eq some_, List.head?_eq_getElem?, List.getElem?_eq_getElem some_]
  constructor
  · intro zero c mem pos b memB
    obtain ⟨k, lt, rfl⟩ := getElem_of_mem mem
    rw [← candAt_eq lt] at pos memB ⊢
    have listed : (k, b) ∈ sortBackfillee cf now jp cands :=
      perm.mem_iff.mpr (mem_backfilleesOf.mpr ⟨lt, memB⟩)
    cases found : (sortBackfillee cf now jp cands).find? fun b => hasAvail cands b.1 with
    | none =>
      have never := List.find?_eq_none.mp found (k, b) listed
      exact absurd (decide_eq_true pos) never
    | some a =>
      have here := (mem_backfilleesOf.mp (perm.mem_iff.mp (mem_of_find?_eq_some found))).2
      rw [zero a found] at here
      refine ⟨_, head, a.2, here, ?_⟩
      rcases sooner_of_find sorted found listed (decide_eq_true pos) with eq | sooner
      · rw [← zero a found, ← eq]
      · rw [← zero a found]
        exact sooner.elim Int.le_of_lt fun tie => Int.le_of_eq tie.1
  · intro soonest a found
    obtain ⟨lt, here⟩ := mem_backfilleesOf.mp (perm.mem_iff.mp (mem_of_find?_eq_some found))
    have pos : hasAvail cands a.1 = true := by simpa using List.find?_some found
    obtain ⟨first, isFirst, b', memB', le⟩ :=
      soonest _ (candAt_mem lt) (of_decide_eq_true pos) a.2 here
    cases isFirst.symm.trans head
    have listed : (0, b') ∈ sortBackfillee cf now jp cands :=
      perm.mem_iff.mpr (mem_backfilleesOf.mpr ⟨some_, memB'⟩)
    rcases sooner_of_find sorted found listed avail with eq | sooner | tie
    · rw [← eq]
    · exact absurd le (Int.not_le.mpr sooner)
    · exact Nat.le_zero.mp tie.2

theorem sortBackfillee_none (none_ : jobHasBackfillee cands = false) :
    sortBackfillee cf now jp cands = [] := by
  refine eq_nil_iff_forall_not_mem.mpr fun b mem => ?_
  obtain ⟨lt, mem⟩ := mem_backfilleesOf.mp (sortBackfillee_sorted.1.mem_iff.mp mem)
  have empty := any_eq_false.mp none_ _ (candAt_mem lt)
  rw [Option.not_isSome_iff_eq_none.mp empty] at mem
  cases mem

end Order

/-! ### The candidate that goes -/

section Asked

variable {cf : Config} {c : DispCall}

def leader (cf : Config) (c : DispCall) (cands : List Cand) : Option Nat :=
  if placedByBackfill cf c.j then firstTaken cands (sortBackfillee cf c.now c.j.jp cands)
  else firstAvail cands

theorem hasAvail_of_leader (first : leader cf c cands = some i) : hasAvail cands i = true := by
  rw [leader] at first
  split at first
  · rcases Option.or_eq_some_iff.mp first with found | ⟨-, found⟩
    · exact List.find?_some found
    · exact List.find?_some found
  · exact List.find?_some first

theorem plainProcs_first {l : Limits} (wants : 0 < l.numProcessors)
    (enough : l.numProcessors ≤ (plainProcs l cands).numAvailEligProc) :
    l.numProcessors ≤ (plainProcs l cands).numEligProc ∧
      execHosts (getBackfillSlotsOnExecCandHost cands (plainProcs l cands).execCandPtr) =
        execHosts (plainProcs l cands).execCandPtr ∧
      ∃ i, firstAvail cands = some i ∧
        (execHosts (plainProcs l cands).execCandPtr).head? = some (candAt cands i).hData := by
  have found := plainProcs_enough enough
  rw [found] at enough ⊢
  exact ⟨enough, getBackfillSlotsOnExecCandHost_hosts (takeAvail_beside cands),
    takeAvail_first cands (lt_of_lt_of_le wants enough)⟩

theorem backfillProcs_first {l : Limits} {sorted : List (Nat × CandBackfillee)}
    (wants : 0 < l.numProcessors) (lends : ∀ b ∈ sorted, 0 < b.2.backfillSlots)
    (enough : l.numProcessors ≤ (backfillProcs l cands sorted).numAvailEligProc) :
    l.numProcessors ≤ (backfillProcs l cands sorted).numEligProc ∧
    ∃ i, firstTaken cands sorted = some i ∧
      (execHosts (backfillProcs l cands sorted).execCandPtr).head? =
        some (candAt cands i).hData := by
  have avail : (backfillProcs l cands sorted).numAvailEligProc =
      (backfillAvail l cands sorted).1 := by
    rw [backfillProcs]
    split <;> rfl
  rw [avail] at enough
  rw [backfillProcs, if_neg (Int.not_lt.mpr enough)]
  obtain ⟨i, first, leads⟩ := backfillAvail_first lends (lt_of_lt_of_le wants enough)
  exact ⟨enough, i, first, leads.execHosts⟩

theorem askedFirst_eq (t : CandTable) (asks : Asks cf c t.slots) :
    ∃ i, leader cf c t.slots.candPtr = some i ∧
      askedFirst cf c t.slots = some (candAt t.slots.candPtr i).hData := by
  have wants : (0 : Int) < (limitsOf c.j t.slots).numProcessors := Int.natCast_pos.mpr c.j.wants
  have needs : (limitsOf c.j t.slots).numProcessors ≤ c.needs := le_max_left _ _
  have lends : ∀ b ∈ sortBackfillee cf c.now c.j.jp t.slots.candPtr, 0 < b.2.backfillSlots := by
    intro b mem
    obtain ⟨lt, mem⟩ := mem_backfilleesOf.mp (sortBackfillee_sorted.1.mem_iff.mp mem)
    exact t.lends _ (candAt_mem lt) b.2 mem
  have enough := needs.trans asks.avail
  rw [askedFirst, leader]
  rw [getNumProcs] at enough ⊢
  split at enough
  · rename_i byBackfill
    rw [if_pos byBackfill, if_pos (Bool.and_eq_true_iff.mp byBackfill).1]
    have all := enough.trans (doBackfill_avail _ _ _)
    obtain ⟨elig, i, first, head⟩ := backfillProcs_first wants lends all
    rw [doBackfill_enough elig]
    exact ⟨i, first, head⟩
  · rename_i plain
    rw [if_neg plain]
    have first : (if placedByBackfill cf c.j then firstTaken t.slots.candPtr
        (sortBackfillee cf c.now c.j.jp t.slots.candPtr) else firstAvail t.slots.candPtr) =
        firstAvail t.slots.candPtr := by
      split
      · rename_i placed
        rw [placed, Bool.not_eq_true] at plain
        rw [sortBackfillee_none plain]
        rfl
      · rfl
    rw [first]
    split at enough
    · rename_i backfill
      have all := enough.trans (doBackfill_avail _ _ _)
      obtain ⟨elig, hosts, head⟩ := plainProcs_first wants all
      rw [if_pos backfill, doBackfill, if_pos elig, hosts]
      exact head
    · rename_i none_
      rw [if_neg none_]
      exact (plainProcs_first wants enough).2.2

theorem removeCandHost_eq_filter_iff (distinct : (cands.map Cand.hData).Nodup)
    (lt : i < cands.length) :
    removeCandHost cands 0 = cands.filter (·.hData ≠ (candAt cands i).hData) ↔ i = 0 := by
  cases cands with
  | nil => exact absurd lt (Nat.not_lt_zero i)
  | cons c cs =>
    rw [map_cons, nodup_cons] at distinct
    have others : ∀ c' ∈ cs, c'.hData ≠ c.hData := by
      intro c' mem eq
      exact distinct.1 (mem_map.mpr ⟨c', mem, eq⟩)
    constructor
    · intro eq
      by_contra later
      obtain ⟨k, rfl⟩ := Nat.exists_eq_succ_of_ne_zero later
      have kept : candAt (c :: cs) (k + 1) ∈ removeCandHost (c :: cs) 0 :=
        @candAt_mem cs k (Nat.lt_of_succ_lt_succ lt)
      rw [eq] at kept
      simp at kept
    · rintro rfl
      rw [candAt_eq lt, filter_cons_of_neg (by simp)]
      exact (filter_eq_self.mpr fun c' mem => by simpa using others c' mem).symm

theorem leader_zero_iff :
    leader cf c cands = some 0 ↔
      (∃ first ∈ cands.head?, 0 < first.numAvailSlots) ∧
        (placedByBackfill cf c.j = true → FirstSoonest cf c.now c.j.jp cands) := by
  rw [leader, ← hasAvail_zero_iff]
  split
  · rename_i byBackfill
    have first := @find_sortBackfillee_zero_iff cf c.now c.j.jp cands
    rw [firstTaken, List.find?_map, Function.comp_def]
    cases found : (sortBackfillee cf c.now c.j.jp cands).find? fun b => hasAvail cands b.1 with
    | none =>
      rw [Option.map_none, Option.none_or, firstAvail_zero_iff]
      simp only [found, byBackfill, forall_const] at first ⊢
      exact ⟨fun avail => ⟨avail, (first avail).mp (by simp)⟩, And.left⟩
    | some b =>
      have avail : hasAvail cands b.1 = true := by simpa using List.find?_some found
      simp only [found, byBackfill, forall_const, Option.map_some, Option.some_or,
        Option.some_inj, Option.mem_some_iff, forall_eq'] at first ⊢
      constructor
      · intro zero
        rw [zero] at avail
        exact ⟨avail, (first avail).mp zero⟩
      · exact fun h => (first h.1).mpr h.2
  · rename_i plain
    simp [plain, firstAvail_zero_iff]

/-- Where a host is asked, the candidate that is taken off the list if it refuses is the one of
that host, and the others stay as they were, exactly if the first candidate has a slot available
and, for a job that goes by its backfill candidates, a backfillee that is to be asked first. -/
theorem removeCandHost_asked_iff (t : CandTable) (asks : Asks cf c t.slots) :
    (∀ h ∈ askedFirst cf c t.slots,
        removeCandHost t.slots.candPtr 0 = t.slots.candPtr.filter (·.hData ≠ h)) ↔
      (∃ first ∈ t.slots.candPtr.head?, 0 < first.numAvailSlots) ∧
        (placedByBackfill cf c.j = true → FirstSoonest cf c.now c.j.jp t.slots.candPtr) := by
  obtain ⟨i, first, asked⟩ := askedFirst_eq t asks
  have removed := removeCandHost_eq_filter_iff t.distinct (hasAvail_lt (hasAvail_of_leader first))
  rw [← leader_zero_iff, first, Option.some_inj, ← removed, asked]
  simp

end Asked

def refusedCall : DispCall where
  j := twoSlotsLeft
  now := 0
  minProcLimit := 0
  delayed := false
  dontTryNextCandHost := false
  enoughMaxUsableSlots := false
  attempts := fun _ => ⟨.refused, false⟩

/-- Two hosts; the first has `avail` of its two slots available. -/
def twoHosts (avail : Nat) : CandTable where
  slots := ⟨2, 2, [freeCand 0 2 avail, freeCand 1 2 2]⟩
  distinct := by simp [freeCand]
  lends := by simp [freeCand]

theorem removeCandHost_asked_two :
    (∀ h ∈ askedFirst oneSlotConf refusedCall (twoHosts 2).slots,
        removeCandHost (twoHosts 2).slots.candPtr 0 =
          (twoHosts 2).slots.candPtr.filter (·.hData ≠ h)) ↔
      (∃ first ∈ (twoHosts 2).slots.candPtr.head?, 0 < first.numAvailSlots) ∧
        (placedByBackfill oneSlotConf refusedCall.j = true →
          FirstSoonest oneSlotConf refusedCall.now refusedCall.j.jp (twoHosts 2).slots.candPtr) :=
  removeCandHost_asked_iff (twoHosts 2) ⟨by decide +kernel, by decide +kernel, by decide +kernel⟩

/-- The first host has no slot available, so the second one is asked; it refuses, and the first
candidate goes. -/
theorem removeCandHost_misses_asked :
    tryCands oneSlotConf refusedCall 0 (twoHosts 0).slots = none ∧
      askedFirst oneSlotConf refusedCall (twoHosts 0).slots = some 1 ∧
      (removeCandHost (twoHosts 0).slots.candPtr 0).map Cand.hData = [1] := by
  decide +kernel

end Jhlava.Mbd
