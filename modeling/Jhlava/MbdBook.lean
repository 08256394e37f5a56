import Mathlib.Data.Int.ConditionallyCompleteOrder
import Jhlava.MbdReserve

/-! The counters of queues, users and hosts as one book of accounts. The updates
of mbd.misc.c post to the book, and `post` says what: the amounts times the
number of times the job's user, groups and hosts are listed. -/
namespace Jhlava.Mbd
open CValues Ledger List

/-- A user without an entry in a `uAcct` table counts 0, and a host without one in `hAcct`. -/
def Accounts.book (acc : Accounts) : Cell → Int
  | (.queue q, c) => (acc.queues q).count c
  | (.user u, c) => (acc.users u).count c
  | (.queueUser q u, c) => ((acc.queues q).uAcct u).getD (fun _ => 0) c
  | (.queueHost q h, c) => ((acc.queues q).hAcct h).elim 0 (·.count c)
  | (.host h, c) => (acc.hosts h).count c
  | (.hostUser h u, c) => ((acc.hosts h).uAcct u).getD (fun _ => 0) c

/-- The counters whose sums can leave the range of an `int`. -/
def Account.wraps : Account → Bool
  | queue _ | user _ | queueUser _ _ => true
  | _ => false

def intMax : Int := 2 ^ 31 - 1

def cellRange (a : Cell) : Set Int := if a.1.wraps then Set.Icc 0 intMax else Set.Ici 0

instance (a : Cell) : (cellRange a).OrdConnected := by
  unfold cellRange
  split
  · exact Set.ordConnected_Icc
  · exact Set.ordConnected_Ici

abbrev Books (f : Accounts → Accounts) (p : Cell → Int) : Prop :=
  Posts cellRange Accounts.book Accounts.negative f p

/-! One record -/

variable {num : Counters} {int : Int → Int} {cur : Counters} {negative : Cell → Nat} {c : Counter}

/-- The sum is stored as it is, and it is not negative. -/
def Stored (int : Int → Int) (sum : Int) : Prop := int sum = sum ∧ 0 ≤ sum

theorem stored_of_range {a : Cell} {sum : Int} (wraps : a.1.wraps) (h : sum ∈ cellRange a) :
    Stored toInt32 sum := by
  rw [cellRange, if_pos wraps] at h
  obtain ⟨lo, hi⟩ := h
  unfold intMax at hi
  exact ⟨toInt32_of_bounds (by omega) (by omega), lo⟩

theorem stored_id {a : Cell} {sum : Int} (h : sum ∈ cellRange a) : Stored id sum := by
  refine ⟨rfl, ?_⟩
  unfold cellRange at h
  split at h
  · exact h.1
  · exact h

theorem addValues_stored (h : Stored int (cur c + num c)) :
    addValues int cur num c = cur c + num c := by
  rw [addValues, addValue, h.1, if_pos h.2]

theorem noteResets_stored {a a' : Account} (h : a' = a → Stored int (cur c + num c)) :
    noteResets int negative a cur num (a', c) = negative (a', c) := by
  refine if_neg fun ⟨same, neg⟩ => ?_
  rw [(h same).1] at neg
  exact absurd neg (Int.not_lt.mpr (h same).2)

variable {uAcct : Nat → Option Counters}

theorem updUAcct_getD {up u : Nat} (jobs : num .numJobs = 0)
    (h : u = up → Stored int ((uAcct up).getD (fun _ => 0) c + num c)) :
    (updUAcct int uAcct up num u).getD (fun _ => 0) c =
      (uAcct u).getD (fun _ => 0) c + if u = up then num c else 0 := by
  unfold updUAcct
  by_cases hu : u = up
  · subst hu
    cases entry : uAcct u with
    | some acct =>
      have fits := h rfl
      rw [entry] at fits
      have sum : addValues int acct num c = acct c + num c := addValues_stored fits
      simp [sum]
    | none =>
      dsimp only
      split
      · simp
      · cases c <;> simp_all
  · cases entry : uAcct up with
    | some acct => simp [hu]
    | none =>
      dsimp only
      split <;> simp [hu]

theorem noteUAcct_stored {a a' : Account} {acct : Option Counters}
    (h : a' = a → Stored int (acct.getD (fun _ => 0) c + num c)) :
    noteUAcct int negative a acct num (a', c) = negative (a', c) := by
  cases acct with
  | none => rfl
  | some acct => exact noteResets_stored h

theorem noJobs_numJobs (num : Counters) : noJobs num .numJobs = 0 := rfl

theorem onlyStarted_zero (c : Counter) : onlyStarted (fun _ => 0) c = 0 := by
  cases c <;> rfl

theorem onlyStarted_add (num num' : Counters) (c : Counter) :
    onlyStarted (fun c => num c + num' c) c = onlyStarted num c + onlyStarted num' c := by
  cases c <;> rfl

theorem noJobs_zero (c : Counter) : noJobs (fun _ => 0) c = 0 := by
  cases c <;> rfl

theorem noJobs_add (num num' : Counters) (c : Counter) :
    noJobs (fun c => num c + num' c) c = noJobs num c + noJobs num' c := by
  cases c <;> rfl

theorem noJobs_nonneg (h : ∀ c, 0 ≤ num c) (c : Counter) : 0 ≤ noJobs num c := by
  cases c with
  | numJobs => exact Int.le_refl 0
  | _ => exact h _

theorem onlyStarted_nonneg (h : ∀ c, 0 ≤ num c) (c : Counter) : 0 ≤ onlyStarted num c := by
  cases c with
  | numJobs | numPEND => exact Int.le_refl 0
  | _ => exact h _

/-! One update of one record -/

def Account.queue? : Account → Option Nat
  | queue q | queueUser q _ | queueHost q _ => some q
  | _ => none

/-- Only the accounts of one queue are posted to. -/
theorem book_setQueue {acc : Accounts} {q : Nat} {n : Cell → Nat} {qp : QData} {p : Int}
    {a : Account} {c : Counter}
    (here : a.queue? = some q →
      Accounts.book { acc with queues := Function.update acc.queues q qp, negative := n } (a, c) =
        acc.book (a, c) + p)
    (elsewhere : a.queue? ≠ some q → p = 0) :
    Accounts.book { acc with queues := Function.update acc.queues q qp, negative := n } (a, c) =
      acc.book (a, c) + p := by
  by_cases own : a.queue? = some q
  · exact here own
  · rw [elsewhere own, add_zero]
    cases a with
    | queue q' | queueUser q' u | queueHost q' h =>
      have other : q' ≠ q := fun eq => own (congrArg some eq)
      simp [Accounts.book, Function.update_of_ne other]
    | _ => rfl

def postQueue (q : Nat) (num : Counters) : Cell → Int
  | (.queue q', c) => if q' = q then num c else 0
  | _ => 0

theorem addQueue_books (q : Nat) (num : Counters) :
    Books (fun acc => addQueue acc q num) (postQueue q num) := by
  rintro acc ⟨a, c⟩ _ finish
  have fits : a = .queue q → Stored toInt32 ((acc.queues q).count c + num c) := by
    rintro rfl
    simpa [Accounts.book, postQueue] using stored_of_range rfl finish
  refine ⟨book_setQueue (fun own => ?_) fun other => ?_, noteResets_stored fits⟩
  · cases a <;> cases own <;> simp_all [Accounts.book, postQueue, addValues_stored]
  · cases a <;> simp_all [postQueue, Account.queue?]

def postQueueUser (q : Nat) (num : Counters) (up : Nat) : Cell → Int
  | (.queueUser q' u, c) => if q' = q ∧ u = up then noJobs num c else 0
  | _ => 0

theorem updQueueUAcct_books (q : Nat) (num : Counters) (up : Nat) :
    Books (fun acc => updQueueUAcct q num acc up) (postQueueUser q num up) := by
  rintro acc ⟨a, c⟩ _ finish
  have fits : a = .queueUser q up →
      Stored toInt32 (((acc.queues q).uAcct up).getD (fun _ => 0) c + noJobs num c) := by
    rintro rfl
    simpa [Accounts.book, postQueueUser] using stored_of_range rfl finish
  refine ⟨book_setQueue (fun own => ?_) fun other => ?_, noteUAcct_stored fits⟩
  · cases a with
    | queueUser q' u =>
      cases own
      have here : u = up → Stored toInt32 _ := fun same => fits (same ▸ rfl)
      simp [Accounts.book, postQueueUser, updUAcct_getD (noJobs_numJobs num) here]
    | _ => cases own <;> simp [Accounts.book, postQueueUser]
  · cases a <;> simp_all [postQueueUser, Account.queue?]

theorem updHAcct1_elim {hAcct : Nat → Option HostAcct} {hp h : Nat}
    (fits : h = hp → 0 ≤ (hAcct hp).elim 0 (·.count c) + addOneAbs 0 (onlyStarted num c)) :
    (updHAcct1 (onlyStarted num) hAcct hp h).elim 0 (·.count c) =
      (hAcct h).elim 0 (·.count c) + if h = hp then addOneAbs 0 (onlyStarted num c) else 0 := by
  have one : ∀ x y, addOneAbs x y = x + addOneAbs 0 y := by
    intro x y
    unfold addOneAbs
    split_ifs <;> omega
  unfold updHAcct1
  by_cases same : h = hp
  · subst same
    cases entry : hAcct h with
    | some acct => simp [one (acct.count c)]
    | none =>
      split
      · simp [addHAcct]
      · -- nothing to count, and nothing to take away from no account
        have least := fits rfl
        clear fits
        cases c <;> simp_all [addOneAbs, onlyStarted] <;> split_ifs at least <;> omega
  · cases entry : hAcct hp with
    | some acct => simp [same]
    | none =>
      split <;> simp [same]

/-- One host of `updQueueHAcct`. -/
def updQueueHAcct1 (cf : Config) (q : Nat) (num : Counters) (acc : Accounts) (hp : Nat) :
    Accounts :=
  if (cf.host hp).remote then acc
  else
    let qp := acc.queues q
    { acc with
      queues := Function.update acc.queues q
        { qp with hAcct := updHAcct1 (onlyStarted num) qp.hAcct hp } }

def postQueueHost (cf : Config) (q : Nat) (num : Counters) (hp : Nat) : Cell → Int
  | (.queueHost q' h, c) =>
    if h = hp ∧ q' = q ∧ (cf.host hp).remote = false then addOneAbs 0 (onlyStarted num c) else 0
  | _ => 0

def postUser (num : Counters) (up : Nat) : Cell → Int
  | (.user u, c) => if u = up then num c else 0
  | _ => 0

def postHost (cf : Config) (uPtr : Nat) (num : Counters) (h : Nat) : Cell → Int
  | (.host h', c) => if h' = h ∧ (cf.host h).remote = false then num c else 0
  | (.hostUser h' u, c) =>
    if h' = h ∧ (cf.host h).remote = false ∧ (cf.host h).uJobLimit.isSome ∧ u = uPtr then
      noJobs num c
    else 0
  | _ => 0

section

variable (cf : Config)
include cf

theorem updQueueHAcct_eq (acc : Accounts) (jp : JData) (num : Counters) :
    updQueueHAcct cf acc jp num = jp.hPtr.foldl (updQueueHAcct1 cf jp.qPtr num) acc := by
  unfold updQueueHAcct updHAcct
  dsimp only
  generalize jp.hPtr = hPtr
  induction hPtr generalizing acc with
  | nil => simp
  | cons hp hPtr ih =>
    rw [foldl_cons, foldl_cons, ← ih]
    unfold updQueueHAcct1
    split
    · rfl
    · simp

theorem updQueueHAcct1_books (q : Nat) (num : Counters) (hp : Nat) :
    Books (fun acc => updQueueHAcct1 cf q num acc hp) (postQueueHost cf q num hp) := by
  rintro acc ⟨a, c⟩ _ finish
  unfold updQueueHAcct1
  by_cases remote : (cf.host hp).remote = true
  · simp only [remote, if_true, and_true]
    cases a <;> simp [postQueueHost, remote]
  · simp only [remote, Bool.false_eq_true, if_false, and_true]
    refine book_setQueue (fun own => ?_) fun other => ?_
    · cases a with
      | queueHost q' h =>
        cases own
        have fits : h = hp → 0 ≤ ((acc.queues q).hAcct hp).elim 0 (·.count c) +
            addOneAbs 0 (onlyStarted num c) := by
          rintro rfl
          simpa [Accounts.book, postQueueHost, remote] using (stored_id finish).2
        simp [Accounts.book, postQueueHost, updHAcct1_elim fits, remote]
      | _ => cases own <;> simp [Accounts.book, postQueueHost]
    · cases a <;> simp_all [postQueueHost, Account.queue?]

theorem updUserData1_books (jp : JData) (num : Counters) (up : Nat) :
    Books (fun acc => updUserData1 cf jp num acc up) (postUser num up) := by
  rintro acc ⟨a, c⟩ _ finish
  have fits : a = .user up → Stored toInt32 ((acc.users up).count c + num c) := by
    rintro rfl
    simpa [Accounts.book, postUser] using stored_of_range rfl finish
  refine ⟨?_, noteResets_stored fits⟩
  cases a with
  | user u =>
    by_cases hu : u = up
    · subst hu
      simp [Accounts.book, updUserData1, postUser, addValues_stored (fits rfl)]
    · simp [Accounts.book, updUserData1, postUser, hu]
  | _ => simp [Accounts.book, updUserData1, postUser]

/-- The user's account on the host, and the resets that are noted for it. -/
def hostUAcct (acc : Accounts) (jp : JData) (num : Counters) (h : Nat) :
    (Nat → Option Counters) × (Cell → Nat) :=
  if (cf.host h).uJobLimit.isSome ∧
      (num .numRUN ≠ 0 ∨ num .numSSUSP ≠ 0 ∨ num .numUSUSP ≠ 0 ∨ num .numRESERVE ≠ 0) then
    (updUAcct id (acc.hosts h).uAcct jp.uPtr (noJobs num),
      noteUAcct id acc.negative (.hostUser h jp.uPtr) ((acc.hosts h).uAcct jp.uPtr) (noJobs num))
  else ((acc.hosts h).uAcct, acc.negative)

variable {a : Account} {c : Counter}

theorem hostUAcct_getD (acc : Accounts) (jp : JData) (h u : Nat) (pend : num .numPEND = 0)
    (fits : (cf.host h).uJobLimit.isSome → u = jp.uPtr →
      Stored id (((acc.hosts h).uAcct jp.uPtr).getD (fun _ => 0) c + noJobs num c)) :
    ((hostUAcct cf acc jp num h).1 u).getD (fun _ => 0) c =
      ((acc.hosts h).uAcct u).getD (fun _ => 0) c +
        if (cf.host h).uJobLimit.isSome ∧ u = jp.uPtr then noJobs num c else 0 := by
  unfold hostUAcct
  split
  · rename_i counted
    rw [updUAcct_getD (noJobs_numJobs num) (fits counted.1)]
    simp [counted.1]
  · by_cases limit : (cf.host h).uJobLimit.isSome
    · have zero : noJobs num c = 0 := by
        cases c <;> simp_all [noJobs]
      simp [zero]
    · simp [limit]

theorem hostUAcct_negative (acc : Accounts) (jp : JData) (h : Nat)
    (fits : (cf.host h).uJobLimit.isSome → a = .hostUser h jp.uPtr →
      Stored id (((acc.hosts h).uAcct jp.uPtr).getD (fun _ => 0) c + noJobs num c)) :
    (hostUAcct cf acc jp num h).2 (a, c) = acc.negative (a, c) := by
  unfold hostUAcct
  split
  · rename_i counted
    exact noteUAcct_stored (fits counted.1)
  · rfl

theorem updHostData1_books (jp : JData) (num : Counters) (h : Nat) (pend : num .numPEND = 0) :
    Books (fun acc => updHostData1 cf jp num acc h) (postHost cf jp.uPtr num h) := by
  rintro acc ⟨a, c⟩ _ finish
  have sum := stored_id finish
  by_cases remote : (cf.host h).remote = true
  · refine ⟨?_, by simp [updHostData1, remote]⟩
    cases a <;> simp [updHostData1, postHost, remote]
  · have fits : a = .host h → Stored id ((acc.hosts h).count c + num c) := by
      rintro rfl
      simpa [Accounts.book, postHost, remote] using sum
    have entry : (cf.host h).uJobLimit.isSome → a = .hostUser h jp.uPtr →
        Stored id (((acc.hosts h).uAcct jp.uPtr).getD (fun _ => 0) c + noJobs num c) := by
      rintro limit rfl
      simpa [Accounts.book, postHost, remote, limit] using sum
    have notes : (updHostData1 cf jp num acc h).negative (a, c) = acc.negative (a, c) := by
      simp only [updHostData1, remote, Bool.false_eq_true, if_false]
      exact (noteResets_stored fits).trans (hostUAcct_negative cf acc jp h entry)
    refine ⟨?_, notes⟩
    cases a with
    | host h' =>
      by_cases hh : h' = h
      · subst hh
        simp [Accounts.book, updHostData1, postHost, remote, addValues_stored (fits rfl)]
      · simp [Accounts.book, updHostData1, postHost, remote, hh]
    | hostUser h' u =>
      by_cases hh : h' = h
      · subst hh
        simp only [Accounts.book, updHostData1, postHost, remote, Bool.false_eq_true,
          if_false, Function.update_self, true_and]
        exact hostUAcct_getD cf acc jp h' u pend fun limit same => entry limit (same ▸ rfl)
      · simp [Accounts.book, updHostData1, postHost, remote, hh]
    | _ => simp [Accounts.book, updHostData1, postHost, remote]

end

/-! The updates of all records -/

def post (cf : Config) (jp : JData) (num hnum : Counters) : Cell → Int
  | (.queue q, c) => if q = jp.qPtr then num c else 0
  | (.user u, c) => (jp.uPtr :: (cf.user jp.uPtr).gPtr).count u * num c
  | (.queueUser q u, c) =>
    if q = jp.qPtr then (jp.uPtr :: (cf.user jp.uPtr).ancestors).count u * noJobs num c else 0
  | (.queueHost q h, c) =>
    if q = jp.qPtr ∧ (cf.host h).remote = false then jp.hPtr.count h * onlyStarted hnum c else 0
  | (.host h, c) => if (cf.host h).remote = false then jp.hPtr.count h * hnum c else 0
  | (.hostUser h u, c) =>
    if (cf.host h).remote = false ∧ (cf.host h).uJobLimit.isSome ∧ u = jp.uPtr then
      jp.hPtr.count h * noJobs hnum c
    else 0

theorem sum_map_eq_count {g : Nat → Int} {k : Nat} (off : ∀ k', k' ≠ k → g k' = 0) (ks : List Nat) :
    (ks.map g).sum = ks.count k * g k := by
  induction ks with
  | nil => simp
  | cons k' ks ih =>
    by_cases h : k' = k
    · subst h
      simp [ih]
      ring
    · simp [ih, off k' h, count_cons_of_ne h]

theorem ite_signed {κ : Type} (counts : κ → Prop) [DecidablePred counts] (x : Int) :
    (∀ k, 0 ≤ if counts k then x else 0) ∨ ∀ k, (if counts k then x else 0) ≤ 0 := by
  rcases Int.le_total 0 x with pos | neg
  · refine .inl fun k => ?_
    split <;> omega
  · refine .inr fun k => ?_
    split <;> omega

section Updates

variable (cf : Config) (jp : JData) (num hnum : Counters)

theorem updQaccount_books :
    Books (fun acc => updQaccount cf acc jp num) (fun a => postQueue jp.qPtr num a +
      ((jp.uPtr :: (cf.user jp.uPtr).ancestors).map (postQueueUser jp.qPtr num · a)).sum +
      (jp.hPtr.map (postQueueHost cf jp.qPtr num · a)).sum) := by
  have users := Posts.foldl (updQueueUAcct_books jp.qPtr num)
    (by
      rintro ⟨a, c⟩
      cases a with
      | queueUser q u => exact ite_signed _ _
      | _ => exact .inl fun _ => Int.le_refl 0)
    (jp.uPtr :: (cf.user jp.uPtr).ancestors)
  have both := (addQueue_books jp.qPtr num).comp users (by
    rintro ⟨a, c⟩
    cases a with
    | queue q => exact agree_of_zero (.inr (by simp [postQueueUser]))
    | _ => exact agree_of_zero (.inl rfl))
  have hosts := Posts.foldl (updQueueHAcct1_books cf jp.qPtr num)
    (by
      rintro ⟨a, c⟩
      cases a with
      | queueHost q h => exact ite_signed _ _
      | _ => exact .inl fun _ => Int.le_refl 0) jp.hPtr
  have all := both.comp hosts (by
    rintro ⟨a, c⟩
    cases a with
    | queueHost q h => exact agree_of_zero (.inl (by simp [postQueue, postQueueUser]))
    | _ => exact agree_of_zero (.inr (by simp [postQueueHost])))
  intro acc a start finish
  unfold updQaccount
  dsimp only
  split
  · rename_i zero
    have nothing : ∀ a, (jp.hPtr.map (postQueueHost cf jp.qPtr num · a)).sum = 0 := by
      rintro ⟨a, c⟩
      cases a <;> cases c <;> simp [postQueueHost, onlyStarted, addOneAbs, zero]
    simp only [nothing, add_zero] at finish ⊢
    exact both acc a start finish
  · rw [updQueueHAcct_eq]
    exact all acc a start finish

theorem updUserData_books :
    Books (fun acc => updUserData cf acc jp num) (fun a =>
      ((jp.uPtr :: (cf.user jp.uPtr).gPtr).map (postUser num · a)).sum) := by
  apply Posts.foldl (updUserData1_books cf jp num)
  rintro ⟨a, c⟩
  cases a with
  | user u => exact ite_signed _ _
  | _ => exact .inl fun _ => Int.le_refl 0

theorem updHostData_books (pend : num .numPEND = 0) :
    Books (fun acc => updHostData cf acc jp num) (fun a =>
      (jp.hPtr.map (postHost cf jp.uPtr num · a)).sum) := by
  apply Posts.foldl (fun h => updHostData1_books cf jp num h pend)
  rintro ⟨a, c⟩
  cases a with
  | host h' => exact ite_signed _ _
  | hostUser h' u => exact ite_signed _ _
  | _ => exact .inl fun _ => Int.le_refl 0

/-- The amounts are those of the hosts, once for each. -/
def PerHost (hPtr : List Nat) (num hnum : Counters) : Prop :=
  hPtr ≠ [] → ∀ c, addOneAbs 0 (onlyStarted num c) = onlyStarted hnum c

theorem post_eq_parts (same : PerHost jp.hPtr num hnum) (a : Cell) :
    post cf jp num hnum a =
      postQueue jp.qPtr num a +
        ((jp.uPtr :: (cf.user jp.uPtr).ancestors).map (postQueueUser jp.qPtr num · a)).sum +
        (jp.hPtr.map (postQueueHost cf jp.qPtr num · a)).sum +
        ((jp.uPtr :: (cf.user jp.uPtr).gPtr).map (postUser num · a)).sum +
        (jp.hPtr.map (postHost cf jp.uPtr hnum · a)).sum := by
  obtain ⟨a, c⟩ := a
  cases a with
  | queue q => simp [post, postQueue, postQueueUser, postQueueHost, postUser, postHost]
  | user u =>
    rw [@sum_map_eq_count (postUser num · (.user u, c)) u fun up h => if_neg (Ne.symm h)]
    simp [post, postQueue, postQueueUser, postQueueHost, postUser, postHost]
  | queueUser q u =>
    rw [@sum_map_eq_count (postQueueUser jp.qPtr num · (.queueUser q u, c)) u
      fun up h => if_neg fun both => h both.2.symm]
    simp [post, postQueue, postQueueUser, postQueueHost, postUser, postHost]
  | queueHost q h =>
    rw [@sum_map_eq_count (postQueueHost cf jp.qPtr num · (.queueHost q h, c)) h
      fun h' ne => if_neg fun both => ne both.1.symm]
    cases hosts : jp.hPtr with
    | nil => simp [post, postQueue, postQueueUser, postUser, hosts]
    | cons h' hPtr =>
      have amount := same (by simp [hosts]) c
      simp [post, postQueue, postQueueUser, postQueueHost, postUser, postHost, hosts, amount]
  | host h =>
    rw [@sum_map_eq_count (postHost cf jp.uPtr hnum · (.host h, c)) h
      fun h' ne => if_neg fun both => ne both.1.symm]
    simp [post, postQueue, postQueueUser, postQueueHost, postUser, postHost]
  | hostUser h u =>
    rw [@sum_map_eq_count (postHost cf jp.uPtr hnum · (.hostUser h u, c)) h
      fun h' ne => if_neg fun both => ne both.1.symm]
    simp [post, postQueue, postQueueUser, postQueueHost, postUser, postHost]

theorem updQueueUser_books :
    Books (fun acc => updUserData cf (updQaccount cf acc jp num) jp num) fun a =>
      postQueue jp.qPtr num a +
        ((jp.uPtr :: (cf.user jp.uPtr).ancestors).map (postQueueUser jp.qPtr num · a)).sum +
        (jp.hPtr.map (postQueueHost cf jp.qPtr num · a)).sum +
        ((jp.uPtr :: (cf.user jp.uPtr).gPtr).map (postUser num · a)).sum :=
  (updQaccount_books cf jp num).comp (updUserData_books cf jp num) (by
    rintro ⟨a, c⟩
    cases a with
    | user u => exact agree_of_zero (.inl (by simp [postQueue, postQueueUser, postQueueHost]))
    | _ => exact agree_of_zero (.inr (by simp [postUser])))

theorem updAll_books (pend : hnum .numPEND = 0) (same : PerHost jp.hPtr num hnum) :
    Books (fun acc => updAll cf acc jp num hnum) (post cf jp num hnum) := by
  rw [funext (post_eq_parts cf jp num hnum same)]
  refine (updQueueUser_books cf jp num).comp (updHostData_books cf jp hnum pend) ?_
  rintro ⟨a, c⟩
  cases a with
  | host h | hostUser h u =>
    exact agree_of_zero (.inl (by simp [postQueue, postQueueUser, postQueueHost, postUser]))
  | _ => exact agree_of_zero (.inr (by simp [postHost]))

end Updates

/-! What is posted adds up -/

theorem post_add (cf : Config) (jp : JData) (num num' hnum hnum' : Counters) (a : Cell) :
    post cf jp (fun c => num c + num' c) (fun c => hnum c + hnum' c) a =
      post cf jp num hnum a + post cf jp num' hnum' a := by
  obtain ⟨a, c⟩ := a
  cases a with
  | queue q =>
    simp only [post]
    split <;> omega
  | user u => exact mul_add _ _ _
  | _ =>
    simp only [post, noJobs_add, onlyStarted_add]
    split
    · exact mul_add _ _ _
    · rfl

theorem post_nonneg (cf : Config) (jp : JData) {hnum : Counters} (pos : ∀ c, 0 ≤ num c)
    (hpos : ∀ c, 0 ≤ hnum c) (a : Cell) : 0 ≤ post cf jp num hnum a := by
  have counted : ∀ {p : Prop} [Decidable p] (n : Nat) {x : Int}, 0 ≤ x →
      0 ≤ if p then n * x else 0 := by
    intro p _ n x pos
    split
    · exact mul_nonneg (Int.natCast_nonneg _) pos
    · exact Int.le_refl 0
  obtain ⟨a, c⟩ := a
  cases a with
  | queue q =>
    simp only [post]
    split
    · exact pos c
    · exact Int.le_refl 0
  | user u => exact mul_nonneg (Int.natCast_nonneg _) (pos c)
  | queueUser q u => exact counted _ (noJobs_nonneg pos c)
  | queueHost q h => exact counted _ (onlyStarted_nonneg hpos c)
  | host h => exact counted _ (hpos c)
  | hostUser h u => exact counted _ (noJobs_nonneg hpos c)

theorem post_zero (cf : Config) (jp : JData) (a : Cell) :
    post cf jp (fun _ => 0) (fun _ => 0) a = 0 := by
  obtain ⟨a, c⟩ := a
  cases a <;> simp [post, noJobs_zero, onlyStarted_zero]

theorem post_hosts (cf : Config) (jp : JData) (num : Counters) (hPtr : List Nat) (a : Cell) :
    post cf { jp with hPtr := hPtr } num (fun _ => 0) a = post cf jp num (fun _ => 0) a := by
  cases a
  simp [post, noJobs_zero, onlyStarted_zero]

end Jhlava.Mbd
