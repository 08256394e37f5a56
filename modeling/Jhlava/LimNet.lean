import Jhlava.LimMasterKept

/-! The LIMs of a cluster and the announcements between them. An announcement that has been
sent can reach any LIM at any later time, any number of times or never. -/
namespace Jhlava.Lim
open TransitionRun Option

/-- One LIM on each host, compiled with `LINUX` and configured from the same cluster file, which
names no host twice. -/
structure LimNet (n : Nat) where
  lim : Fin n → LimConf n
  own : ∀ i, (lim i).myHostPtr = i
  linux : ∀ i, (lim i).linux = true
  clName : List Char
  clName_eq : ∀ i, (lim i).clName = clName
  hostList : Fin n → HostNode
  hostList_eq : ∀ i, (lim i).hostList = hostList
  apart : ∀ i j, equalHost (hostList i).hostName (hostList j).hostName = true → i = j

/-- The LIMs, `none` after a crash, and the hosts that the announcements sent so far name. -/
structure NetState (n : Nat) where
  lims : Fin n → Option (Cluster n)
  sent : List (Fin n)

inductive NetEvent (n : Nat) where
  | announce (i : Fin n)
  | deliver (i : Fin n) (k : Nat)
  | periodic (i : Fin n) (connects : Bool)

variable {n : Nat} (net : LimNet n) (s : NetState n)

def LimNet.hostNo (h : Fin n) : Int := (net.hostList h).hostNo

/-- The announcement that names a host. -/
def LimNet.masterReg (h : Fin n) : Announcement :=
  ⟨true, true, net.clName, (net.hostList h).hostName⟩

def NetState.setLim (i : Fin n) (c : Option (Cluster n)) : NetState n :=
  { s with lims := Function.update s.lims i c }

def receive (i h : Fin n) : Option (Cluster n) :=
  (s.lims i).bind fun c => masterRegister (net.lim i) c (net.masterReg h)

/-- A LIM announces the host that is its `masterPtr`, in `announceMaster` as in
`announceMasterToHost`. -/
def netStep : NetEvent n → NetState n
  | .announce i => { s with sent := s.sent ++ ((s.lims i).bind (·.masterPtr)).toList }
  | .deliver i k =>
    match s.sent[k]? with
    | none => s
    | some h => s.setLim i (receive net s i h)
  | .periodic i connects =>
    s.setLim i ((s.lims i).bind fun c => (sendLoad (net.lim i) c connects).map Prod.fst)

def netStart : NetState n := ⟨fun i => some (limStart (net.lim i)), []⟩

def NetState.Master (i : Fin n) : Prop := ∃ c, s.lims i = some c ∧ c.masterMe = true

variable {net s} {i j h : Fin n} {c c' : Cluster n}

theorem equalHost_self (host : List Char) : equalHost host host = true := by
  simp [equalHost, isBoundary]

theorem findHostbyList_net (i h : Fin n) :
    findHostbyList (net.lim i) (net.hostList h).hostName = some h := by
  unfold findHostbyList
  rw [net.hostList_eq]
  cases find : (List.finRange n).find? _ with
  | none =>
    have none_ := List.find?_eq_none.1 find h (List.mem_finRange h)
    simp [equalHost_self] at none_
  | some k => rw [net.apart k h (by simpa using List.find?_some find)]

theorem acceptAnnounce_net :
    acceptAnnounce (net.lim i) c h =
      if net.hostNo h < net.hostNo i then some (newMaster c h)
      else if c.masterKnown && c.masterInactivityCount < (net.lim i).hostInactivityLimit then
        c.masterPtr.map fun _ => c
      else some c := by
  simp only [acceptAnnounce, net.linux, LimConf.myHostNo, LimConf.hostNo, net.hostList_eq, net.own,
    LimNet.hostNo, Bool.not_true, Bool.false_or, decide_eq_true_eq]
  cases c.masterPtr <;> rfl

theorem masterRegister_net :
    masterRegister (net.lim i) c (net.masterReg h) =
      if i = h then some c
      else if c.masterKnown ∧ c.masterPtr = some h then some { c with masterInactivityCount := 0 }
      else if c.masterKnown && net.hostNo h < net.hostNo i then
        c.masterPtr.bind fun masterPtr =>
          if net.hostNo masterPtr < net.hostNo h ∧
              c.masterInactivityCount ≤ (net.lim i).hostInactivityLimit then some c
          else acceptAnnounce (net.lim i) c h
      else acceptAnnounce (net.lim i) c h := by
  have mine : (equalHost (net.hostList i).hostName (net.hostList h).hostName = true) = (i = h) :=
    propext ⟨net.apart i h, fun same => same ▸ equalHost_self _⟩
  have no : ∀ k, (net.lim i).hostNo k = net.hostNo k := by
    intro k
    rw [LimConf.hostNo, net.hostList_eq, LimNet.hostNo]
  simp only [masterRegister, LimNet.masterReg, net.clName_eq, net.hostList_eq, net.own,
    findHostbyList_net, LimConf.myHostNo, no, mine, Bool.not_true, Bool.false_eq_true, ne_eq,
    not_true_eq_false, if_false]
  rfl

/-- A LIM keeps its master or takes the host announced, which has a lower number than its own. -/
theorem masterRegister_outcomes
    (received : masterRegister (net.lim i) c (net.masterReg h) = some c') :
    c' = c ∨ c' = { c with masterInactivityCount := 0 } ∨
      c' = newMaster c h ∧ net.hostNo h < net.hostNo i := by
  have accept : acceptAnnounce (net.lim i) c h = some c' →
      c' = c ∨ c' = newMaster c h ∧ net.hostNo h < net.hostNo i := by
    intro accepted
    rcases acceptAnnounce_cases accepted with same | ⟨new, lower⟩
    · exact .inl same
    · refine .inr ⟨new, ?_⟩
      simpa [LimConf.myHostNo, LimConf.hostNo, net.hostList_eq, net.own, LimNet.hostNo] using
        lower (net.linux i)
  rw [masterRegister_net] at received
  split_ifs at received with own regular known
  · exact .inl (Option.some.inj received).symm
  · exact .inr (.inl (Option.some.inj received).symm)
  · obtain ⟨m, -, received⟩ := bind_eq_some_iff.1 received
    split_ifs at received
    · exact .inl (Option.some.inj received).symm
    · exact (accept received).imp_right .inr
  · exact (accept received).imp_right .inr

/-- A LIM whose master is active does not take a host with a higher number than it. -/
theorem masterRegister_active {m : Fin n} (known : c.masterKnown = true)
    (master : c.masterPtr = some m)
    (active : c.masterInactivityCount ≤ (net.lim i).hostInactivityLimit)
    (lower : net.hostNo m < net.hostNo h) :
    masterRegister (net.lim i) c (net.masterReg h) = some c := by
  have other : m ≠ h := by
    rintro rfl
    exact lt_irrefl _ lower
  rw [masterRegister_net, acceptAnnounce_net]
  simp only [known, master, Option.some.injEq, other, and_false, if_false, lower, active, and_self,
    if_true, bind_some, map_some, ite_self, Bool.true_and, decide_eq_true_eq]
  split_ifs <;> rfl

theorem masterRegister_lower (known : c.masterKnown = true) (master : c.masterPtr = some i)
    (lower : net.hostNo h < net.hostNo i) :
    masterRegister (net.lim i) c (net.masterReg h) = some (newMaster c h) := by
  have other : i ≠ h := by
    rintro rfl
    exact lt_irrefl _ lower
  rw [masterRegister_net, acceptAnnounce_net]
  simp [known, master, other, lower, lower.le]

/-! ### Runs -/

/-- A LIM that is the master has itself as its master. -/
def NetState.Mine (s : NetState n) : Prop :=
  ∀ i c, s.lims i = some c → c.masterMe = true → c.masterKnown = true ∧ c.masterPtr = some i

theorem mine_sendLoad {connects : Bool} {r : Cluster n × Option (Fin n)}
    (mine : c.masterMe = true → c.masterKnown = true ∧ c.masterPtr = some i)
    (result : sendLoad (net.lim i) c connects = some r) (master : r.1.masterMe = true) :
    r.1.masterKnown = true ∧ r.1.masterPtr = some i := by
  have takeover : ∀ t : Cluster n, t.masterMe = false →
      (tryTakeover (net.lim i) t connects).1.masterMe = true →
      (tryTakeover (net.lim i) t connects).1.masterKnown = true ∧
        (tryTakeover (net.lim i) t connects).1.masterPtr = some i := by
    intro t others
    unfold tryTakeover
    split_ifs
    · cases probeMasterTcp (net.lim i) t connects with
      | none => exact fun _ => ⟨rfl, congrArg some (net.own i)⟩
      | some _ => exact fun me => absurd me (by simp [others])
    · exact fun me => absurd me (by simp [others])
  rcases sendLoad_cases result with ⟨rfl, _⟩ | ⟨others, t, rfl, rfl | ⟨rfl, -⟩ | ⟨rfl, -⟩⟩
  · exact mine master
  · simp [others] at master
  · exact takeover _ others master
  · exact takeover _ others master

theorem mine_step (event : NetEvent n) (mine : s.Mine) : (netStep net s event).Mine := by
  have set_ : ∀ i c', (∀ c, c' = some c → c.masterMe = true →
      c.masterKnown = true ∧ c.masterPtr = some i) → (s.setLim i c').Mine := by
    intro i c' new j c here
    by_cases same : j = i
    · subst same
      exact new c (by simpa [NetState.setLim] using here)
    · exact mine j c (by simpa [NetState.setLim, same] using here)
  cases event with
  | announce i => exact mine
  | deliver i k =>
    cases message : s.sent[k]? with
    | none => simpa [netStep, message] using mine
    | some h =>
      rw [netStep, message]
      refine set_ i _ fun c' received => ?_
      obtain ⟨c, here, received⟩ := bind_eq_some_iff.1 received
      rcases masterRegister_outcomes received with rfl | rfl | ⟨rfl, -⟩
      · exact mine i _ here
      · exact mine i c here
      · simp [newMaster]
  | periodic i connects =>
    refine set_ i _ fun c' result => ?_
    obtain ⟨c, here, result⟩ := bind_eq_some_iff.1 result
    obtain ⟨r, sent, rfl⟩ := map_eq_some_iff.1 result
    exact mine_sendLoad (mine i c here) sent

theorem mine_start : (netStart net).Mine := by
  rintro i c ⟨⟩ master
  rcases limStart_cases (net.lim i) with start | start <;> rw [start] at master ⊢
  · cases master
  · exact ⟨rfl, congrArg some (net.own i)⟩

/-- The master of a run: who gives in, who stays and what ends two masters. -/
theorem masters_agree (events : List (NetEvent n)) :
    let s := run (netStep net) (netStart net) events
    (∀ event i c c', s.lims i = some c → c.masterMe = true →
      (netStep net s event).lims i = some c' → c'.masterMe = false →
        ∃ k h, event = .deliver i k ∧ s.sent[k]? = some h ∧ net.hostNo h < net.hostNo i) ∧
    (∀ i c m k h, s.lims i = some c → c.masterKnown = true → c.masterPtr = some m →
      c.masterInactivityCount ≤ (net.lim i).hostInactivityLimit → s.sent[k]? = some h →
        net.hostNo m < net.hostNo h → (netStep net s (.deliver i k)).lims i = some c) ∧
    ∀ i j k, s.Master i → s.Master j → net.hostNo i < net.hostNo j → s.sent[k]? = some i →
      ∃ c, (netStep net s (.deliver j k)).lims j = some c ∧ c.masterMe = false := by
  intro s
  have mine : s.Mine := run_keeps _ (fun _ _ => mine_step _) mine_start events
  refine ⟨?_, ?_, ?_⟩
  · intro event i c c' before master after gone
    have changed : (netStep net s event).lims i ≠ s.lims i := by
      rw [before, after]
      rintro ⟨⟩
      simp [master] at gone
    cases event with
    | announce j => exact absurd rfl changed
    | deliver j k =>
      cases message : s.sent[k]? with
      | none => simp [netStep, message] at changed
      | some h =>
        by_cases here : i = j
        · subst here
          refine ⟨k, h, rfl, message, ?_⟩
          have received : masterRegister (net.lim i) c (net.masterReg h) = some c' := by
            simpa [netStep, message, NetState.setLim, receive, before] using after
          rcases masterRegister_outcomes received with rfl | rfl | ⟨-, lower⟩
          · simp [master] at gone
          · simp [master] at gone
          · exact lower
        · simp [netStep, message, NetState.setLim, here] at changed
    | periodic j connects =>
      by_cases here : i = j
      · subst here
        simp [netStep, NetState.setLim, before, sendLoad, master] at changed
      · simp [netStep, NetState.setLim, here] at changed
  · intro i c m k h before known master active message lower
    simp [netStep, message, NetState.setLim, receive, before,
      masterRegister_active known master active lower]
  · intro i j k _ both lower message
    obtain ⟨c, before, me⟩ := both
    obtain ⟨known, master⟩ := mine j c before me
    refine ⟨newMaster c i, ?_, rfl⟩
    simp [netStep, message, NetState.setLim, receive, before,
      masterRegister_lower known master lower]

def twoHosts : LimNet 2 where
  lim i := ⟨['c'], fun h => ⟨'h' :: List.replicate h.val 'h', h.val⟩, i,
    none, none, none, false, true⟩
  own _ := rfl
  linux _ := rfl
  clName := ['c']
  clName_eq _ := rfl
  hostList h := ⟨'h' :: List.replicate h.val 'h', h.val⟩
  hostList_eq _ := rfl
  apart := by decide

/-- The second host hears nothing of the first until it has become the master, too. -/
def lateAnnounce (first second : Fin 2) : List (NetEvent 2) :=
  List.replicate 8 (.periodic second false) ++ [.announce first]

theorem lateAnnounce_masters :
    ∀ i, (run (netStep twoHosts) (netStart twoHosts) (lateAnnounce 0 1)).Master i :=
  Fin.forall_fin_two.mpr ⟨⟨_, rfl, by decide +kernel⟩, ⟨_, rfl, by decide +kernel⟩⟩

theorem masters_agree_lateAnnounce :
    ∃ c, (netStep twoHosts (run (netStep twoHosts) (netStart twoHosts) (lateAnnounce 0 1))
      (.deliver 1 0)).lims 1 = some c ∧ c.masterMe = false :=
  (masters_agree (lateAnnounce 0 1)).2.2 0 1 0 (lateAnnounce_masters 0) (lateAnnounce_masters 1)
    (by decide) (by decide +kernel)

/-- In every run a master knows itself as the master and announces itself. -/
theorem masters_announce_themselves (events : List (NetEvent n)) :
    let s := run (netStep net) (netStart net) events
    s.Mine ∧ ∀ i, s.Master i → (netStep net s (.announce i)).sent = s.sent ++ [i] := by
  intro s
  have mine : s.Mine := run_keeps _ (fun _ _ => mine_step _) mine_start events
  refine ⟨mine, ?_⟩
  rintro i ⟨c, here, master⟩
  simp [netStep, here, mine i c here master]

theorem masters_announce_themselves_lateAnnounce :
    (netStep twoHosts (run (netStep twoHosts) (netStart twoHosts) (lateAnnounce 0 1))
      (.announce 1)).sent = [0, 1] :=
  (masters_announce_themselves (lateAnnounce 0 1)).2 1 (lateAnnounce_masters 1)

end Jhlava.Lim
