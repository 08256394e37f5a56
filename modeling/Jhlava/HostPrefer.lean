import Mathlib.Algebra.Order.Ring.Int
import Jhlava.AskedFirst
import Jhlava.CandOrder
import Jhlava.StableSort

/-! The preferences among the candidate hosts of a job, mbd.policy.c: `hostPreference1` brings the
candidates into the order of the priorities with which their hosts were asked for. -/
namespace Jhlava.Cands
open StableSort AskedHosts List

/-- A candidate with its flags `NEED_COPY` and `COPY_DONE`. -/
structure Flagged where
  cand : CandHost
  needCopy : Bool
  copyDone : Bool
  deriving DecidableEq, Repr

/-- What is copied so far; `pref` tells the caller of a priority. -/
structure Copying where
  tmpCandPtr : List CandHost
  flags : List Flagged
  deriving DecidableEq, Repr

/-- `copyCandHostData`. The list of backfillees is copied with its entries. -/
def copyCandHostData (source : CandHost) : CandHost := { source with preemptableV := none }

def needHost (hData : Nat) : List Flagged → List Flagged
  | [] => []
  | f :: flags =>
    if f.cand.hData = hData then { f with needCopy := true } :: flags else f :: needHost hData flags

/-- The candidates for which `takes` holds are copied, and flagged as copied. -/
def copyThose (takes : Flagged → Bool) (s : Copying) : Copying where
  tmpCandPtr := s.tmpCandPtr ++ (s.flags.filter takes).map fun f => copyCandHostData f.cand
  flags := s.flags.map fun f =>
    if takes f then { f with needCopy := false, copyDone := true } else f

/-- `copyCandHosts`, with the entry behind the one with this priority. -/
def copyCandHosts (priority : Int) (next : Option AskedHost) (s : Copying) : Copying :=
  if next.all fun e => e.priority ≠ priority then copyThose Flagged.needCopy s else s

def copyAsked (e : AskedHost) (rest : List AskedHost) (s : Copying) : Copying :=
  copyCandHosts e.priority rest.head? { s with flags := needHost e.hData s.flags }

def copyPreferred (askedOthPrio : Int) : List AskedHost → Copying → Copying
  | [], s => s
  | e :: rest, s =>
    if e.priority < 1 then s
    else if e.priority ≤ askedOthPrio then s
    else copyPreferred askedOthPrio rest (copyAsked e rest s)

def isAskedHost (askedPtr : List AskedHost) (hData : Nat) : Bool := askedPtr.any (·.hData = hData)

def isInCandList (candHost : List CandHost) (hData : Nat) : Bool := candHost.any (·.hData = hData)

def copyOthers (askedPtr : List AskedHost) (askedOthPrio : Int) (s : Copying) : Copying :=
  let flags := askedPtr.foldl
    (fun flags e => if e.priority ≠ askedOthPrio then flags else needHost e.hData flags) s.flags
  copyThose
    (fun f => !f.copyDone &&
      (f.needCopy || (!isAskedHost askedPtr f.cand.hData && decide (0 ≤ askedOthPrio))))
    { s with flags := flags }

def copyLower (askedOthPrio : Int) : List AskedHost → Copying → Copying
  | [], s => s
  | e :: rest, s =>
    if e.priority ≥ askedOthPrio ∨ isInCandList s.tmpCandPtr e.hData then
      copyLower askedOthPrio rest s
    else copyLower askedOthPrio rest (copyAsked e rest s)

/-- The loop of `noPreference`: the priority of all, `none` if there are two. -/
def samePriority : Int → List AskedHost → Option Int
  | priority, [] => some priority
  | priority, e :: rest =>
    if priority < 0 then samePriority e.priority rest
    else if priority ≠ e.priority then none
    else samePriority priority rest

def noPreference (askedPtr : List AskedHost) (askedOthPrio : Int) : Bool :=
  match samePriority (-1) askedPtr with
  | none => false
  | some priority =>
    !(decide (0 ≤ askedOthPrio) && decide (0 ≤ priority) && priority != askedOthPrio)

/-- `hostPreference1`: the candidates, and `pref`. Both calls pass the list in which `isAskedHost`
or `isQAskedHost` looks. -/
def hostPreference1 (askedPtr : List AskedHost) (askedOthPrio : Int) (nHosts : Nat)
    (candPtr : List CandHost) : List CandHost × Bool :=
  if noPreference askedPtr askedOthPrio then (candPtr, false)
  else
    let pref := askedPtr.head?.any fun e => 1 ≤ e.priority
    let s := copyPreferred askedOthPrio askedPtr
      ⟨[], (candPtr.take nHosts).map fun c => ⟨c, false, false⟩⟩
    if askedOthPrio < 1 then ((copyThose (fun f => !f.copyDone) s).tmpCandPtr, pref)
    else
      ((copyLower askedOthPrio askedPtr (copyOthers askedPtr askedOthPrio s)).tmpCandPtr, pref)

/-! ### The asked hosts -/

/-- The hosts that are asked for, the preferred ones first. -/
structure AskedList where
  hosts : List AskedHost
  distinct : (hosts.map AskedHost.hData).Nodup
  sorted : hosts.Pairwise fun e f => f.priority ≤ e.priority

def preference (askedPtr : List AskedHost) (askedOthPrio : Int) (c : CandHost) : Int :=
  match askedPtr.find? fun e => e.hData = c.hData with
  | some e => e.priority
  | none => askedOthPrio

/-! ### The copies of one loop -/

variable {askedOthPrio : Int} {c : CandHost} {e : AskedHost} {h : Nat}

section Copies

def flagged (done need : Nat → Bool) (c : CandHost) : Flagged := ⟨c, need c.hData, done c.hData⟩

def onHosts (es : List AskedHost) (h : Nat) : Bool := es.any (·.hData = h)

def copyAll : List AskedHost → Copying → Copying
  | [], s => s
  | e :: rest, s => copyAll rest (copyAsked e rest s)

variable {front : List CandHost} {done need : Nat → Bool} {tmp : List CandHost}
    {es : List AskedHost}

theorem needHost_flagged (distinct : (front.map CandHost.hData).Nodup) (h : Nat) :
    needHost h (front.map (flagged done need)) =
      front.map (flagged done fun h' => decide (h = h') || need h') := by
  induction front with
  | nil => rfl
  | cons c front ih =>
    obtain ⟨here, later⟩ := nodup_cons.mp distinct
    rw [map_cons, needHost]
    by_cases eq : c.hData = h
    · rw [if_pos (show (flagged done need c).cand.hData = h from eq)]
      subst eq
      refine congrArg₂ List.cons ?_ (map_congr_left fun d mem => ?_)
      · simp [flagged]
      · have other : c.hData ≠ d.hData := fun eq => here (eq ▸ mem_map_of_mem mem)
        simp [flagged, other]
    · rw [if_neg (show ¬(flagged done need c).cand.hData = h from eq), ih later]
      simp [flagged, Ne.symm eq]

theorem copyThose_flagged {takes : Flagged → Bool} {those : Nat → Bool}
    (exactly : ∀ c, takes (flagged done need c) = those c.hData) :
    copyThose takes ⟨tmp, front.map (flagged done need)⟩ =
      ⟨tmp ++ (front.filter fun c => those c.hData).map copyCandHostData,
        front.map (flagged (fun h => those h || done h) fun h => need h && !those h)⟩ := by
  unfold copyThose
  congr 1
  · rw [filter_map, map_map]
    refine congrArg _ (congrArg _ (filter_congr fun c _ => ?_))
    exact exactly c
  · rw [map_map]
    refine map_congr_left fun c _ => ?_
    rw [Function.comp_apply, exactly]
    cases here : those c.hData <;> simp [flagged, here]

theorem copyThose_needed :
    copyThose Flagged.needCopy ⟨tmp, front.map (flagged done need)⟩ =
      ⟨tmp ++ (front.filter fun c => need c.hData).map copyCandHostData,
        front.map (flagged (fun h => need h || done h) fun _ => false)⟩ := by
  have exactly : ∀ c, (flagged done need c).needCopy = need c.hData := fun _ => rfl
  rw [copyThose_flagged exactly]
  simp

theorem mem_onHosts : onHosts es h = true ↔ ∃ e ∈ es, e.hData = h := by
  simp [onHosts]

/-- A copied part is in the order of the priorities; the hosts of `need` wait for the end of
the class that `es` goes on with. -/
theorem copyAll_sorted (distinct : (front.map CandHost.hData).Nodup) {key : CandHost → Int}
    (sorted : es.Pairwise fun e f => f.priority ≤ e.priority)
    (keys : ∀ e ∈ es, ∀ c : CandHost, c.hData = e.hData → key c = -e.priority)
    (waiting : ∀ c : CandHost, need c.hData = true → ∃ e ∈ es.head?, key c = -e.priority) :
    ∃ copied, StablySorted key (front.filter fun c => need c.hData || onHosts es c.hData) copied ∧
      copyAll es ⟨tmp, front.map (flagged done need)⟩ =
        ⟨tmp ++ copied.map copyCandHostData,
          front.map (flagged (fun h => (need h || onHosts es h) || done h) fun _ => false)⟩ := by
  induction es generalizing tmp done need with
  | nil =>
    have none_ : ∀ c : CandHost, need c.hData = false :=
      fun c => Bool.eq_false_iff.mpr fun here => by simpa using waiting c here
    refine ⟨[], ?_, by simp [copyAll, onHosts, flagged, none_]⟩
    simpa [onHosts, none_] using StablySorted.of_sorted List.Pairwise.nil
  | cons e rest ih =>
    obtain ⟨below, sorted⟩ := pairwise_cons.mp sorted
    obtain ⟨ownKey, keys⟩ := forall_mem_cons.mp keys
    have classKey : ∀ c : CandHost, (decide (e.hData = c.hData) || need c.hData) = true →
        key c = -e.priority := by
      intro c here
      rcases Bool.or_eq_true_iff.mp here with own | waits
      · exact ownKey c (of_decide_eq_true own).symm
      · simpa using waiting c waits
    have sets : ∀ h, (need h || onHosts (e :: rest) h) =
        ((decide (e.hData = h) || need h) || onHosts rest h) := by
      intro h
      ac_rfl
    simp only [sets]
    rw [copyAll, copyAsked, copyCandHosts, needHost_flagged distinct]
    split
    · rename_i last
      have lower : ∀ f ∈ rest, f.priority < e.priority := by
        cases rest with
        | nil => simp
        | cons g rest =>
          have first := (below g mem_cons_self).lt_of_ne (by simpa using last)
          refine forall_mem_cons.mpr ⟨first, fun f mem => ?_⟩
          exact (rel_of_pairwise_cons sorted mem).trans_lt first
      rw [copyThose_needed]
      obtain ⟨copied, order, copies⟩ := @ih (fun h => (decide (e.hData = h) || need h) || done h)
        (fun _ => false)
        (tmp ++ (front.filter fun c => decide (e.hData = c.hData) || need c.hData).map
          copyCandHostData) sorted keys (fun _ no => by cases no)
      simp only [Bool.false_or] at order copies
      refine ⟨_ ++ copied, (StablySorted.of_sorted ?_).append order ?_, ?_⟩
      · refine pairwise_of_forall_mem_list fun c mem d mem' => ?_
        rw [classKey c (mem_filter.mp mem).2, classKey d (mem_filter.mp mem').2]
      · intro c _ d _ here there
        obtain ⟨f, mem, eq⟩ := mem_onHosts.mp there
        rw [classKey c here, keys f mem d eq.symm]
        exact neg_lt_neg (lower f mem)
      · rw [copies, map_append, append_assoc]
        simp only [Bool.or_assoc, Bool.or_left_comm]
    · rename_i more
      refine @ih done (fun h => decide (e.hData = h) || need h) tmp sorted keys fun c here => ?_
      cases rest with
      | nil => simp at more
      | cons f rest =>
        have same : f.priority = e.priority := by simpa using more
        exact ⟨f, rfl, same ▸ classKey c here⟩

def isPreferred (askedOthPrio : Int) (e : AskedHost) : Bool :=
  decide (1 ≤ e.priority) && decide (askedOthPrio < e.priority)

theorem isPreferred_iff :
    isPreferred askedOthPrio e = true ↔ 1 ≤ e.priority ∧ askedOthPrio < e.priority := by
  simp [isPreferred]

theorem filter_isPreferred_nil (sorted : (e :: es).Pairwise fun e f => f.priority ≤ e.priority)
    (not_ : ¬isPreferred askedOthPrio e = true) :
    (e :: es).filter (isPreferred askedOthPrio) = [] := by
  refine filter_eq_nil_iff.mpr (forall_mem_cons.mpr ⟨not_, fun f mem => ?_⟩)
  have below := rel_of_pairwise_cons sorted mem
  rw [isPreferred_iff] at not_ ⊢
  omega

theorem copyPreferred_eq (s : Copying) (sorted : es.Pairwise fun e f => f.priority ≤ e.priority) :
    copyPreferred askedOthPrio es s = copyAll (es.filter (isPreferred askedOthPrio)) s := by
  induction es generalizing s with
  | nil => rfl
  | cons e es ih =>
    rw [copyPreferred]
    by_cases taken : isPreferred askedOthPrio e = true
    · obtain ⟨positive, above⟩ := isPreferred_iff.mp taken
      have sorted' := List.Pairwise.of_cons sorted
      -- the entry behind the last preferred one has another priority
      have heads : es.head?.all (fun f => decide (f.priority ≠ e.priority)) =
          (es.filter (isPreferred askedOthPrio)).head?.all
            fun f => decide (f.priority ≠ e.priority) := by
        cases es with
        | nil => rfl
        | cons f es =>
          by_cases here : isPreferred askedOthPrio f = true
          · rw [filter_cons_of_pos here]
            rfl
          · rw [filter_isPreferred_nil sorted' here]
            rw [isPreferred_iff] at here
            exact decide_eq_true (by omega)
      rw [if_neg (by omega), if_neg (by omega), ih _ sorted', filter_cons_of_pos taken, copyAll]
      unfold copyAsked copyCandHosts
      rw [heads]
    · rw [filter_isPreferred_nil sorted taken]
      rw [isPreferred_iff] at taken
      by_cases low : e.priority < 1
      · rw [if_pos low]
        rfl
      · rw [if_neg low, if_pos (by omega)]
        rfl

def Untouched (s : Copying) (h : Nat) : Prop :=
  (∀ c ∈ s.tmpCandPtr, c.hData ≠ h) ∧ ∀ f ∈ s.flags, f.needCopy = true → f.cand.hData ≠ h

theorem mem_needHost {flags : List Flagged} {f : Flagged} (mem : f ∈ needHost h flags) :
    f.cand.hData = h ∨ f ∈ flags := by
  induction flags with
  | nil => cases mem
  | cons g flags ih =>
    rw [needHost] at mem
    split at mem
    case isTrue here =>
      rcases mem_cons.mp mem with rfl | mem
      · exact Or.inl here
      · exact Or.inr (mem_cons_of_mem g mem)
    case isFalse =>
      rcases mem_cons.mp mem with rfl | mem
      · exact Or.inr mem_cons_self
      · exact (ih mem).imp_right (mem_cons_of_mem g)

theorem Untouched.copyAsked {s : Copying} (untouched : Untouched s h) (other : e.hData ≠ h)
    (rest : List AskedHost) : Untouched (copyAsked e rest s) h := by
  obtain ⟨copied, flags⟩ := untouched
  have flags' : ∀ f ∈ needHost e.hData s.flags, f.needCopy = true → f.cand.hData ≠ h := by
    intro f mem need eq
    rcases mem_needHost mem with here | mem
    · exact other (here.symm.trans eq)
    · exact flags f mem need eq
  unfold Cands.copyAsked copyCandHosts
  split
  · refine ⟨fun c mem => ?_, fun f mem need => ?_⟩
    · rcases mem_append.mp mem with mem | mem
      · exact copied c mem
      · obtain ⟨f, taken, rfl⟩ := mem_map.mp mem
        obtain ⟨mem, need⟩ := mem_filter.mp taken
        exact flags' f mem need
    · obtain ⟨g, mem, rfl⟩ := mem_map.mp mem
      split at need
      · cases need
      · contradiction
  · exact ⟨copied, flags'⟩

theorem copyLower_eq {s : Copying} (sorted : es.Pairwise fun e f => f.priority ≤ e.priority)
    (hosts : (es.map AskedHost.hData).Nodup)
    (untouched : ∀ e ∈ es, e.priority < askedOthPrio → Untouched s e.hData) :
    copyLower askedOthPrio es s =
      copyAll (es.filter fun e => decide (e.priority < askedOthPrio)) s := by
  induction es generalizing s with
  | nil => rfl
  | cons e es ih =>
    obtain ⟨le, sorted⟩ := pairwise_cons.mp sorted
    obtain ⟨fresh, hosts⟩ := nodup_cons.mp hosts
    obtain ⟨here, later⟩ := forall_mem_cons.mp untouched
    rw [copyLower]
    by_cases low : e.priority < askedOthPrio
    · have absent : isInCandList s.tmpCandPtr e.hData = false := by
        refine any_eq_false.mpr fun c mem => ?_
        simpa using (here low).1 c mem
      have all : es.filter (fun e => decide (e.priority < askedOthPrio)) = es := by
        refine filter_eq_self.mpr fun f mem => decide_eq_true ?_
        exact (le f mem).trans_lt low
      rw [if_neg (by simp [absent, low]), filter_cons_of_pos (by simp [low]), copyAll]
      rw [ih sorted hosts, all]
      intro f mem low'
      refine (later f mem low').copyAsked (fun eq => fresh ?_) es
      exact eq ▸ mem_map_of_mem mem
    · rw [if_pos (Or.inl (not_lt.mp low)), filter_cons_of_neg (by simpa using low)]
      exact ih sorted hosts later

theorem needOthers_flagged (distinct : (front.map CandHost.hData).Nodup) (askedOthPrio : Int) :
    es.foldl (fun flags e => if e.priority ≠ askedOthPrio then flags else needHost e.hData flags)
        (front.map (flagged done need)) =
      front.map (flagged done fun h =>
        onHosts (es.filter fun e => decide (e.priority = askedOthPrio)) h || need h) := by
  induction es generalizing need with
  | nil => rfl
  | cons e es ih =>
    rw [foldl_cons]
    by_cases here : e.priority = askedOthPrio
    · rw [if_neg (by simpa using here), needHost_flagged distinct, ih,
        filter_cons_of_pos (by simpa using here)]
      ac_rfl
    · rw [if_pos here, ih, filter_cons_of_neg (by simpa using here)]

end Copies

/-! ### The order of the candidates -/

namespace AskedList

variable (asked : AskedList) {askedOthPrio : Int}

def key (askedOthPrio : Int) (c : CandHost) : Int := -preference asked.hosts askedOthPrio c

theorem unique {f : AskedHost} (mem : e ∈ asked.hosts) (mem' : f ∈ asked.hosts)
    (same : e.hData = f.hData) : e = f :=
  inj_on_of_nodup_map asked.distinct mem mem' same

variable {asked}

theorem preference_of_mem (mem : e ∈ asked.hosts) (host : c.hData = e.hData) :
    preference asked.hosts askedOthPrio c = e.priority := by
  unfold preference
  cases found : asked.hosts.find? fun e => decide (e.hData = c.hData) with
  | none => exact absurd host.symm (by simpa using List.find?_eq_none.mp found e mem)
  | some f =>
    have same : f.hData = c.hData := by simpa using List.find?_some found
    rw [asked.unique (mem_of_find?_eq_some found) mem (same.trans host)]

theorem preference_of_others (not_ : onHosts asked.hosts c.hData = false) :
    preference asked.hosts askedOthPrio c = askedOthPrio := by
  unfold preference
  rw [List.find?_eq_none.mpr]
  intro e mem
  simpa using any_eq_false.mp not_ e mem

theorem key_of_mem (mem : e ∈ asked.hosts) (host : c.hData = e.hData) :
    asked.key askedOthPrio c = -e.priority :=
  congrArg (-·) (preference_of_mem mem host)

def preferred (asked : AskedList) (askedOthPrio : Int) : List AskedHost :=
  asked.hosts.filter (isPreferred askedOthPrio)

section Front

variable {front : List CandHost}

def positive (asked : AskedList) (askedOthPrio : Int) (c : CandHost) : Bool :=
  decide (1 ≤ preference asked.hosts askedOthPrio c)

variable {p : AskedHost → Bool}

theorem onHosts_filter (mem : e ∈ asked.hosts) : onHosts (asked.hosts.filter p) e.hData = p e := by
  rw [Bool.eq_iff_iff, mem_onHosts]
  constructor
  · rintro ⟨f, mem', host⟩
    obtain ⟨mem', here⟩ := mem_filter.mp mem'
    exact asked.unique mem' mem host ▸ here
  · intro here
    exact ⟨e, mem_filter.mpr ⟨mem, here⟩, rfl⟩

theorem onHosts_filter_other (not_ : onHosts asked.hosts h = false) :
    onHosts (asked.hosts.filter p) h = false := by
  refine any_eq_false.mpr fun e mem => ?_
  exact any_eq_false.mp not_ e (mem_filter.mp mem).1

theorem onHosts_preferred (low : askedOthPrio < 1) (c : CandHost) :
    onHosts (asked.preferred askedOthPrio) c.hData = asked.positive askedOthPrio c := by
  unfold positive preferred
  cases isAsked : onHosts asked.hosts c.hData with
  | true =>
    obtain ⟨e, mem, host⟩ := mem_onHosts.mp isAsked
    rw [preference_of_mem mem host.symm, ← host, onHosts_filter mem, isPreferred]
    by_cases le : 1 ≤ e.priority
    · simp [le, low.trans_le le]
    · simp [le]
  | false =>
    rw [preference_of_others isAsked, onHosts_filter_other isAsked]
    exact (decide_eq_false (not_le.mpr low)).symm

section

variable (distinct : (front.map CandHost.hData).Nodup)
include distinct

theorem copyAll_filter (p : AskedHost → Bool) (done : Nat → Bool) (tmp : List CandHost) :
    ∃ copied, StablySorted (asked.key askedOthPrio)
        (front.filter fun c => onHosts (asked.hosts.filter p) c.hData) copied ∧
      copyAll (asked.hosts.filter p) ⟨tmp, front.map (flagged done fun _ => false)⟩ =
        ⟨tmp ++ copied.map copyCandHostData,
          front.map (flagged (fun h => onHosts (asked.hosts.filter p) h || done h) fun _ =>
            false)⟩ := by
  have all := @copyAll_sorted front done (fun _ => false) tmp _ distinct (asked.key askedOthPrio)
    (asked.sorted.sublist (filter_sublist (p := p)))
    (fun e mem c host => key_of_mem (mem_filter.mp mem).1 host) (fun _ no => by cases no)
  simpa only [Bool.false_or] using all

theorem copyPreferred_sorted :
    ∃ copied, StablySorted (asked.key askedOthPrio)
        (front.filter fun c => onHosts (asked.preferred askedOthPrio) c.hData) copied ∧
      copyPreferred askedOthPrio asked.hosts ⟨[], front.map fun c => ⟨c, false, false⟩⟩ =
        ⟨copied.map copyCandHostData,
          front.map (flagged (onHosts (asked.preferred askedOthPrio)) fun _ => false)⟩ := by
  obtain ⟨copied, order, copies⟩ :=
    copyAll_filter distinct (isPreferred askedOthPrio) (fun _ => false) []
  refine ⟨copied, order, ?_⟩
  rw [copyPreferred_eq _ asked.sorted]
  simp only [nil_append, Bool.or_false] at copies
  exact copies

theorem copied_low (low : askedOthPrio < 1)
    (prefers : noPreference asked.hosts askedOthPrio = false) :
    ∃ copied, StablySorted (asked.key askedOthPrio)
        (front.filter (asked.positive askedOthPrio)) copied ∧
      ∀ candPtr nHosts, candPtr.take nHosts = front →
        (hostPreference1 asked.hosts askedOthPrio nHosts candPtr).1 =
          (copied ++ front.filter fun c => !asked.positive askedOthPrio c).map
            copyCandHostData := by
  obtain ⟨copied, order, copies⟩ := @copyPreferred_sorted asked askedOthPrio front distinct
  simp only [onHosts_preferred low] at order
  refine ⟨copied, order, ?_⟩
  rintro candPtr nHosts rfl
  have rest := @copyThose_flagged (candPtr.take nHosts) (onHosts (asked.preferred askedOthPrio))
    (fun _ => false) (copied.map copyCandHostData) (fun f => !f.copyDone)
    (fun h => !onHosts (asked.preferred askedOthPrio) h) fun _ => rfl
  unfold hostPreference1
  rw [prefers]
  rw [if_pos low, copies, rest]
  simp [onHosts_preferred low]

end

def equal (asked : AskedList) (askedOthPrio : Int) : List AskedHost :=
  asked.hosts.filter fun e => decide (e.priority = askedOthPrio)

def lower (asked : AskedList) (askedOthPrio : Int) : List AskedHost :=
  asked.hosts.filter fun e => decide (e.priority < askedOthPrio)

def amongOthers (asked : AskedList) (askedOthPrio : Int) (h : Nat) : Bool :=
  onHosts (asked.equal askedOthPrio) h || !onHosts asked.hosts h

theorem parts (high : 1 ≤ askedOthPrio) (h : Nat) :
    (onHosts (asked.preferred askedOthPrio) h = true ∧ asked.amongOthers askedOthPrio h = false ∧
        onHosts (asked.lower askedOthPrio) h = false) ∨
      (onHosts (asked.preferred askedOthPrio) h = false ∧ asked.amongOthers askedOthPrio h = true ∧
        onHosts (asked.lower askedOthPrio) h = false) ∨
      (onHosts (asked.preferred askedOthPrio) h = false ∧ asked.amongOthers askedOthPrio h = false ∧
        onHosts (asked.lower askedOthPrio) h = true) := by
  unfold amongOthers preferred equal lower
  cases isAsked : onHosts asked.hosts h with
  | false => simp [onHosts_filter_other isAsked]
  | true =>
    obtain ⟨e, mem, rfl⟩ := mem_onHosts.mp isAsked
    rw [onHosts_filter mem, onHosts_filter mem, onHosts_filter mem]
    simp only [isPreferred, Bool.not_true, Bool.or_false, Bool.and_eq_true, Bool.and_eq_false_iff,
      decide_eq_true_eq, decide_eq_false_iff_not]
    omega

theorem copyOthers_flagged (distinct : (front.map CandHost.hData).Nodup) (high : 1 ≤ askedOthPrio)
    (tmp : List CandHost) :
    copyOthers asked.hosts askedOthPrio
        ⟨tmp, front.map (flagged (onHosts (asked.preferred askedOthPrio)) fun _ => false)⟩ =
      ⟨tmp ++ (front.filter fun c => asked.amongOthers askedOthPrio c.hData).map copyCandHostData,
        front.map (flagged (fun h => asked.amongOthers askedOthPrio h ||
          onHosts (asked.preferred askedOthPrio) h) fun _ => false)⟩ := by
  unfold copyOthers
  rw [needOthers_flagged distinct]
  have exactly := @copyThose_flagged front (onHosts (asked.preferred askedOthPrio))
    (fun h => onHosts (asked.equal askedOthPrio) h || false) tmp
    (fun f => !f.copyDone &&
      (f.needCopy || (!isAskedHost asked.hosts f.cand.hData && decide (0 ≤ askedOthPrio))))
    (asked.amongOthers askedOthPrio) ?_
  · refine exactly.trans ?_
    congr 1
    refine map_congr_left fun c _ => ?_
    unfold flagged amongOthers
    cases here : onHosts (asked.equal askedOthPrio) c.hData <;> simp [here]
  · intro c
    have othersAsked : decide (0 ≤ askedOthPrio) = true := decide_eq_true (by omega)
    change (!onHosts (asked.preferred askedOthPrio) c.hData &&
      ((onHosts (asked.equal askedOthPrio) c.hData || false) ||
        (!onHosts asked.hosts c.hData && decide (0 ≤ askedOthPrio)))) = _
    rw [othersAsked, Bool.or_false, Bool.and_true]
    change (!onHosts (asked.preferred askedOthPrio) c.hData &&
      asked.amongOthers askedOthPrio c.hData) = _
    rcases @parts asked askedOthPrio high c.hData with ⟨pref, others, -⟩ | ⟨pref, others, -⟩ |
      ⟨pref, others, -⟩
    all_goals
      rw [pref, others]
      rfl

theorem key_amongOthers (here : asked.amongOthers askedOthPrio c.hData = true) :
    asked.key askedOthPrio c = -askedOthPrio := by
  cases isAsked : onHosts asked.hosts c.hData with
  | false => rw [key, preference_of_others isAsked]
  | true =>
    rw [amongOthers, isAsked, Bool.not_true, Bool.or_false] at here
    obtain ⟨e, mem, host⟩ := mem_onHosts.mp here
    obtain ⟨mem, eq⟩ := mem_filter.mp mem
    rw [key_of_mem mem host.symm, of_decide_eq_true eq]

theorem key_preferred (here : onHosts (asked.preferred askedOthPrio) c.hData = true) :
    asked.key askedOthPrio c < -askedOthPrio := by
  obtain ⟨e, mem, host⟩ := mem_onHosts.mp here
  obtain ⟨mem, above⟩ := mem_filter.mp mem
  rw [key_of_mem mem host.symm]
  exact neg_lt_neg (isPreferred_iff.mp above).2

theorem key_lower (here : onHosts (asked.lower askedOthPrio) c.hData = true) :
    -askedOthPrio < asked.key askedOthPrio c := by
  obtain ⟨e, mem, host⟩ := mem_onHosts.mp here
  obtain ⟨mem, below⟩ := mem_filter.mp mem
  rw [key_of_mem mem host.symm]
  exact neg_lt_neg (of_decide_eq_true below)

theorem amongOthers_sorted :
    StablySorted (asked.key askedOthPrio)
      (front.filter fun c => asked.amongOthers askedOthPrio c.hData)
      (front.filter fun c => asked.amongOthers askedOthPrio c.hData) := by
  refine StablySorted.of_sorted (pairwise_of_forall_mem_list fun c mem d mem' => ?_)
  rw [key_amongOthers (mem_filter.mp mem).2, key_amongOthers (mem_filter.mp mem').2]

theorem copied_high (distinct : (front.map CandHost.hData).Nodup) (high : 1 ≤ askedOthPrio)
    (prefers : noPreference asked.hosts askedOthPrio = false) :
    ∃ copied, StablySorted (asked.key askedOthPrio) front copied ∧
      ∀ candPtr nHosts, candPtr.take nHosts = front →
        (hostPreference1 asked.hosts askedOthPrio nHosts candPtr).1 =
          copied.map copyCandHostData := by
  obtain ⟨first, order, copies⟩ := @copyPreferred_sorted asked askedOthPrio front distinct
  obtain ⟨last, order', copies'⟩ := @copyAll_filter asked askedOthPrio front distinct
    (fun e => decide (e.priority < askedOthPrio))
    (fun h => asked.amongOthers askedOthPrio h || onHosts (asked.preferred askedOthPrio) h)
    (first.map copyCandHostData ++
      (front.filter fun c => asked.amongOthers askedOthPrio c.hData).map copyCandHostData)
  change StablySorted _ (front.filter fun c => onHosts (asked.lower askedOthPrio) c.hData) last
    at order'
  have all : front.filter (fun c => onHosts (asked.preferred askedOthPrio) c.hData ||
      (asked.amongOthers askedOthPrio c.hData || onHosts (asked.lower askedOthPrio) c.hData)) =
      front := by
    refine filter_eq_self.mpr fun c _ => ?_
    rcases @parts asked askedOthPrio high c.hData with ⟨here, -, -⟩ | ⟨-, here, -⟩ | ⟨-, -, here⟩
    all_goals simp [here]
  refine ⟨first ++ (front.filter (fun c => asked.amongOthers askedOthPrio c.hData) ++ last), ?_, ?_⟩
  · have behind := amongOthers_sorted.append order' fun c _ d _ here there =>
      (key_amongOthers here).trans_lt (key_lower there)
    have sorted := order.append behind ?_
    · rwa [all] at sorted
    · intro c _ d _ here there
      rcases Bool.or_eq_true_iff.mp there with there | there
      · exact (key_preferred here).trans_eq (key_amongOthers there).symm
      · exact (key_preferred here).trans (key_lower there)
  · rintro candPtr nHosts rfl
    unfold hostPreference1
    rw [prefers, if_neg Bool.false_ne_true]
    rw [if_neg (by omega), copies, copyOthers_flagged distinct high,
      copyLower_eq asked.sorted asked.distinct]
    · refine (congrArg Copying.tmpCandPtr copies').trans ?_
      simp
    · intro e mem low
      have isLower : onHosts (asked.lower askedOthPrio) e.hData = true :=
        (onHosts_filter mem).trans (decide_eq_true low)
      have kind : onHosts (asked.preferred askedOthPrio) e.hData = false ∧
          asked.amongOthers askedOthPrio e.hData = false := by
        rcases @parts asked askedOthPrio high e.hData with ⟨-, -, no⟩ | ⟨-, -, no⟩ |
          ⟨here, there, -⟩
        · exact absurd isLower (by simp [no])
        · exact absurd isLower (by simp [no])
        · exact ⟨here, there⟩
      refine ⟨fun c mem host => ?_, fun f mem need => ?_⟩
      · rw [← map_append] at mem
        obtain ⟨d, copied, rfl⟩ := mem_map.mp mem
        rcases mem_append.mp copied with copied | copied
        · have here := (mem_filter.mp (order.perm.subset copied)).2
          exact absurd here (by simp [show d.hData = e.hData from host, kind])
        · have here := (mem_filter.mp copied).2
          exact absurd here (by simp [show d.hData = e.hData from host, kind])
      · obtain ⟨c, -, rfl⟩ := mem_map.mp mem
        cases need

end Front

def Indifferent (asked : AskedList) (askedOthPrio : Int) : Prop :=
  (∀ e ∈ asked.hosts, e.priority < 0) ∨
    ∃ p, 0 ≤ p ∧ (∀ e ∈ asked.hosts, e.priority = p) ∧ (askedOthPrio < 0 ∨ askedOthPrio = p)

theorem samePriority_of_nonneg {p : Int} (nonneg : 0 ≤ p) (es : List AskedHost) :
    samePriority p es = if ∀ e ∈ es, e.priority = p then some p else none := by
  induction es with
  | nil => simp [samePriority]
  | cons e es ih =>
    rw [samePriority, if_neg (by omega)]
    by_cases eq : p = e.priority
    · rw [ih]
      simp [← eq]
    · rw [if_pos eq, if_neg]
      intro all
      exact eq (all e mem_cons_self).symm

theorem samePriority_of_neg {p : Int} (neg : p < 0) {es : List AskedHost}
    (all : ∀ e ∈ es, e.priority < 0) : ∃ q, q < 0 ∧ samePriority p es = some q := by
  induction es generalizing p with
  | nil => exact ⟨p, neg, rfl⟩
  | cons e es ih =>
    obtain ⟨here, later⟩ := forall_mem_cons.mp all
    rw [samePriority, if_pos neg]
    exact ih here later

theorem noPreference_iff :
    noPreference asked.hosts askedOthPrio = true ↔ asked.Indifferent askedOthPrio := by
  have sorted := asked.sorted
  unfold noPreference Indifferent
  generalize asked.hosts = hosts at sorted ⊢
  cases hosts with
  | nil => simp [samePriority]
  | cons e es =>
    have below := (pairwise_cons.mp sorted).1
    rw [samePriority, if_pos (by decide : (-1 : Int) < 0)]
    rcases lt_or_ge e.priority 0 with neg | nonneg
    · have all : ∀ f ∈ e :: es, f.priority < 0 :=
        forall_mem_cons.mpr ⟨neg, fun f mem => (below f mem).trans_lt neg⟩
      obtain ⟨q, neg', same⟩ := samePriority_of_neg neg (forall_mem_cons.mp all).2
      rw [same]
      refine iff_of_true ?_ (Or.inl all)
      simp [not_le.mpr neg']
    · rw [samePriority_of_nonneg nonneg]
      have notNeg : ¬∀ f ∈ e :: es, f.priority < 0 :=
        fun all => absurd nonneg (not_le.mpr (all e mem_cons_self))
      have others : (∃ p, 0 ≤ p ∧ (∀ f ∈ e :: es, f.priority = p) ∧
          (askedOthPrio < 0 ∨ askedOthPrio = p)) ↔
          (∀ f ∈ es, f.priority = e.priority) ∧ (askedOthPrio < 0 ∨ askedOthPrio = e.priority) := by
        constructor
        · rintro ⟨p, -, all, oth⟩
          obtain ⟨rfl, later⟩ := forall_mem_cons.mp all
          exact ⟨later, oth⟩
        · rintro ⟨later, oth⟩
          exact ⟨e.priority, nonneg, forall_mem_cons.mpr ⟨rfl, later⟩, oth⟩
      rw [or_iff_right notNeg, others]
      by_cases same : ∀ f ∈ es, f.priority = e.priority
      · rw [if_pos same, and_iff_right same]
        simp only [Bool.not_eq_true', Bool.and_eq_false_iff, decide_eq_false_iff_not,
          bne_eq_false_iff_eq]
        omega
      · rw [if_neg same]
        exact iff_of_false Bool.false_ne_true fun h => same h.1

end AskedList

def Preferred (asked : AskedList) (askedOthPrio : Int) (before after : List CandHost) : Prop :=
  after.Perm before ∧
    (after.Pairwise fun c d =>
      preference asked.hosts askedOthPrio d ≤ preference asked.hosts askedOthPrio c) ∧
    ∀ v, (after.filter fun c => preference asked.hosts askedOthPrio c = v) =
      before.filter fun c => preference asked.hosts askedOthPrio c = v

def InOrder (asked : AskedList) (askedOthPrio : Int) (cands : List CandHost) : Prop :=
  cands.Pairwise fun c d =>
    preference asked.hosts askedOthPrio d ≤ preference asked.hosts askedOthPrio c

theorem inOrder_iff {asked : AskedList} {cands : List CandHost} :
    InOrder asked askedOthPrio cands ↔
      cands.Pairwise fun c d => asked.key askedOthPrio c ≤ asked.key askedOthPrio d :=
  List.Pairwise.iff fun {_ _} => neg_le_neg_iff.symm

theorem preferred_iff {asked : AskedList} {before after : List CandHost} :
    Preferred asked askedOthPrio before after ↔
      StablySorted (asked.key askedOthPrio) before after := by
  constructor
  · rintro ⟨-, sorted, same⟩
    refine ⟨fun v => ?_, inOrder_iff.mp sorted⟩
    simpa only [AskedList.key, neg_eq_iff_eq_neg] using same (-v)
  · intro sorted
    refine ⟨sorted.perm, inOrder_iff.mpr sorted.sorted, fun v => ?_⟩
    simpa only [AskedList.key, neg_inj] using sorted.same (-v)

section Main

variable {asked : AskedList} {askedOthPrio : Int} {front copied : List CandHost}

theorem preferred_copies_iff (perm : copied.Perm front) :
    Preferred asked askedOthPrio front (copied.map copyCandHostData) ↔
      (∀ c ∈ front, c.preemptableV = none) ∧ Preferred asked askedOthPrio front copied := by
  have intact : (∀ c ∈ front, c.preemptableV = none) → copied.map copyCandHostData = copied := by
    intro none_
    refine (map_congr_left fun c mem => ?_).trans (map_id copied)
    have lost := none_ c (perm.subset mem)
    exact congrArg _ lost.symm
  constructor
  · intro preferred
    have none_ : ∀ c ∈ front, c.preemptableV = none := by
      intro c mem
      obtain ⟨d, -, rfl⟩ := mem_map.mp (preferred.1.mem_iff.mpr mem)
      rfl
    rw [intact none_] at preferred
    exact ⟨none_, preferred⟩
  · rintro ⟨none_, preferred⟩
    rwa [intact none_]

theorem positive_apart {d : CandHost} (here : asked.positive askedOthPrio c = true)
    (there : (!asked.positive askedOthPrio d) = true) :
    asked.key askedOthPrio c < asked.key askedOthPrio d := by
  have above := of_decide_eq_true here
  rw [Bool.not_eq_true'] at there
  have below := of_decide_eq_false there
  exact neg_lt_neg ((not_le.mp below).trans_le above)

theorem preferred_low_iff
    (order : StablySorted (asked.key askedOthPrio) (front.filter (asked.positive askedOthPrio))
      copied) :
    Preferred asked askedOthPrio front
        (copied ++ front.filter fun c => !asked.positive askedOthPrio c) ↔
      InOrder asked askedOthPrio (front.filter fun c => !asked.positive askedOthPrio c) := by
  rw [preferred_iff, inOrder_iff]
  constructor
  · intro sorted
    exact sorted.sorted.sublist (sublist_append_right _ _)
  · intro inOrder
    have rest : StablySorted (asked.key askedOthPrio)
        (front.filter fun c => !asked.positive askedOthPrio c) _ := StablySorted.of_sorted inOrder
    have whole := order.append rest fun c _ d _ => positive_apart
    rwa [filter_eq_self.mpr fun c _ => by simp] at whole

end Main

def Orderly (asked : AskedList) (askedOthPrio : Int) (front : List CandHost) : Prop :=
  (asked.Indifferent askedOthPrio ∧ InOrder asked askedOthPrio front) ∨
    (¬asked.Indifferent askedOthPrio ∧ (∀ c ∈ front, c.preemptableV = none) ∧
      (1 ≤ askedOthPrio ∨
        InOrder asked askedOthPrio (front.filter fun c => !asked.positive askedOthPrio c)))

/-- The first `nHosts` candidates are brought into the order of preference exactly if they are
orderly. -/
theorem hostPreference1_iff (cands : CandList) (asked : AskedList) (askedOthPrio : Int)
    (nHosts : Nat) :
    Preferred asked askedOthPrio (cands.candPtr.toList.take nHosts)
        ((hostPreference1 asked.hosts askedOthPrio nHosts cands.candPtr.toList).1.take nHosts) ↔
      Orderly asked askedOthPrio (cands.candPtr.toList.take nHosts) := by
  unfold Orderly
  have distinct : ((cands.candPtr.toList.take nHosts).map CandHost.hData).Nodup :=
    ((take_sublist _ _).map _).nodup cands.distinct
  have short : (cands.candPtr.toList.take nHosts).length ≤ nHosts := length_take_le _ _
  have takeCopies : ∀ {copied : List CandHost}, copied.length ≤ nHosts →
      (copied.map copyCandHostData).take nHosts = copied.map copyCandHostData := by
    intro copied le
    exact take_of_length_le ((length_map _).trans_le le)
  by_cases prefers : noPreference asked.hosts askedOthPrio = true
  · have indifferent := AskedList.noPreference_iff.mp prefers
    rw [hostPreference1, if_pos prefers, preferred_iff]
    simp only [indifferent, true_and, not_true, false_and, or_false, inOrder_iff]
    exact ⟨fun sorted => sorted.sorted, StablySorted.of_sorted⟩
  · have different := mt AskedList.noPreference_iff.mpr prefers
    rw [Bool.not_eq_true] at prefers
    simp only [different, false_and, not_false_eq_true, true_and, false_or]
    rcases lt_or_ge askedOthPrio 1 with low | high
    · obtain ⟨copied, order, copies⟩ := AskedList.copied_low distinct low prefers
      have perm : (copied ++ (cands.candPtr.toList.take nHosts).filter fun c =>
          !asked.positive askedOthPrio c).Perm (cands.candPtr.toList.take nHosts) :=
        (order.perm.append_right _).trans (filter_append_perm _ _)
      rw [copies _ _ rfl, takeCopies (perm.length_eq.trans_le short), preferred_copies_iff perm,
        preferred_low_iff order, or_iff_right (not_le.mpr low)]
    · obtain ⟨copied, order, copies⟩ := AskedList.copied_high distinct high prefers
      rw [copies _ _ rfl, takeCopies (order.perm.length_eq.trans_le short),
        preferred_copies_iff order.perm, preferred_iff]
      simp [order, high]

def negativeAsked : List AskedHost := [⟨1, 0⟩, ⟨2, -1⟩]

theorem negativeAsked_distinct : (negativeAsked.map AskedHost.hData).Nodup := by decide

theorem negativeAsked_sorted :
    negativeAsked.Pairwise fun e f => f.priority ≤ e.priority := by decide

def twoFree : Array CandHost := #[⟨2, 1, 1, 1, 1, none, none⟩, ⟨1, 1, 1, 1, 1, none, none⟩]

/-- A negative priority does not move a candidate behind one that has the priority 0. -/
theorem hostPreference1_ignores_negative :
    ¬Preferred ⟨negativeAsked, negativeAsked_distinct, negativeAsked_sorted⟩ (-1)
      (twoFree.toList.take 2)
      ((hostPreference1 negativeAsked (-1) 2 twoFree.toList).1.take 2) := by
  rintro ⟨-, sorted, -⟩
  revert sorted
  decide

end Jhlava.Cands
