import Jhlava.ConfRead

/-! Reading a configuration again. The readers of lsb.conf.c go back to the root, but the tags of
the nodes and the stack stay as the last reading left them. -/
namespace Jhlava.Conf
open TextScan

/-- What `lsb_readparam` and the readers like it do before they read. -/
def rewind (rootNode : Option Nat) (conf : LsConf) : LsConf :=
  { conf with curNode := rootNode, lineCount := 0 }

/-- The configuration after `n` lines have been asked for. -/
def afterLines (fuel : Nat) : Nat → LsConf → Option LsConf
  | 0, conf => some conf
  | n + 1, conf => (readNextLine fuel conf).bind fun r => afterLines fuel n r.2

/-- No condition is being read. -/
def Closed (conf : LsConf) : Prop :=
  conf.ptrStack = [] ∧ ∀ node ∈ conf.nodes, node.tag ≠ .pased

instance (conf : LsConf) : Decidable (Closed conf) := inferInstanceAs (Decidable (_ ∧ _))

/-! ### Two readings side by side -/

/-- Of the tag, `readNextLine` only asks whether it is `NODE_PASED`. -/
def settle (node : ConfNode) : ConfNode :=
  { node with tag := if node.tag = .pased then .pased else .clear }

/-- What no call changes. -/
def core (conf : LsConf) : List ConfNode × List Text × List Bool :=
  (conf.nodes.map untag, conf.conds, conf.values)

/-- A call does not tell the nodes of `a` from the other ones. -/
def AlikeNodes (t : List ConfNode × List Text × List Bool) (a : LsConf) (nodes : List ConfNode) :
    Prop :=
  core a = t ∧ nodes.map settle = a.nodes.map settle

def Alike (t : List ConfNode × List Text × List Bool) (a b : LsConf) : Prop :=
  ∃ nodes, AlikeNodes t a nodes ∧ b = { a with nodes }

abbrev AlikeResults (t : List ConfNode × List Text × List Bool) :
    Option (Line × LsConf) → Option (Line × LsConf) → Prop :=
  Option.Rel fun r r' => r.1 = r'.1 ∧ Alike t r.2 r'.2

section Alike
variable {t : List ConfNode × List Text × List Bool} {nodes : List ConfNode} {a b : LsConf}
  {fuel n : Nat}

theorem AlikeNodes.setTag (h : AlikeNodes t a nodes) (i : Nat) (tag : NodeTag) :
    AlikeNodes t (a.setTag i tag) (nodes.modify i fun node => { node with tag }) := by
  refine ⟨(congrArg (·, _) (untag_modify _ _ _)).trans h.1, List.ext_getElem? fun j => ?_⟩
  have node := congrArg (·[j]?) h.2
  simp only [LsConf.setTag, List.getElem?_map, List.getElem?_modify] at node ⊢
  split
  · generalize nodes[j]? = x, a.nodes[j]? = y at node ⊢
    rcases x with _ | x <;> rcases y with _ | y <;> simp_all [settle]
  · simpa using node

theorem AlikeResults.thenRead {r r' : Option (Line × LsConf)}
    {next next' : LsConf → Option (Line × LsConf)} (h : AlikeResults t r r')
    (then_ : ∀ a b, Alike t a b → AlikeResults t (next a) (next' b)) :
    AlikeResults t (thenRead r next) (thenRead r' next') := by
  rcases h with @⟨⟨line, a⟩, ⟨line', b⟩, rfl, alike⟩ | _
  · cases line with
    | none => exact then_ a b alike
    | some line => exact .some ⟨rfl, alike⟩
  · exact .none

section Calls
variable {read : LsConf → Option (Line × LsConf)}
  (calls : ∀ a b, Alike t a b → AlikeResults t (read a) (read b))
include calls

theorem follow_alike (h : AlikeNodes t a nodes) (fwPtr : Option Nat) :
    AlikeResults t (follow read fwPtr a) (follow read fwPtr { a with nodes }) := by
  have first := calls { a with curNode := fwPtr, lineCount := 0 } _ ⟨nodes, h, rfl⟩
  refine first.thenRead ?_
  rintro a _ ⟨nodes, h, rfl⟩
  exact calls { a with curNode := a.ptrStack.head?, lineCount := 0 } _ ⟨nodes, h, rfl⟩

theorem leave_alike (h : AlikeNodes t a nodes) (i : Nat) (node : ConfNode) (tag : NodeTag) :
    AlikeResults t (leave read i node a) (leave read i { node with tag } { a with nodes }) := by
  exact follow_alike calls
    (AlikeNodes.setTag (a := { a with ptrStack := a.ptrStack.tail }) h i .clear)
    node.fwPtr

end Calls

theorem eq_of_settle {x y : ConfNode} (same : settle y = settle x) :
    ∃ tag, y = { x with tag } ∧ (tag = .pased ↔ x.tag = .pased) := by
  refine ⟨y.tag, ?_, ?_⟩
  · have parts := congrArg untag same
    cases y
    simpa [settle, untag] using parts
  · have tags := congrArg ConfNode.tag same
    simp only [settle] at tags
    split_ifs at tags <;> simp_all

theorem readNextLine_alike (fuel : Nat) (h : Alike t a b) :
    AlikeResults t (readNextLine fuel a) (readNextLine fuel b) := by
  induction fuel generalizing a b with
  | zero => exact .none
  | succ fuel ih =>
    obtain ⟨nodes, h, rfl⟩ := h
    have calls : ∀ a b, Alike t a b → AlikeResults t (readNextLine fuel a) (readNextLine fuel b) :=
      fun _ _ => ih
    rcases a with ⟨nodes₀, conds, values, _ | i, lineCount, ptrStack⟩
    · exact .some ⟨rfl, nodes, h, rfl⟩
    · have node := congrArg (·[i]?) h.2
      simp only [List.getElem?_map] at node
      rw [readNextLine, readNextLine]
      dsimp only at node ⊢
      generalize nodes₀[i]? = x, nodes[i]? = y at node ⊢
      rcases x with _ | x <;> rcases y with _ | y
      · exact .none
      · cases node
      · cases node
      · obtain ⟨tag, rfl, pased⟩ := eq_of_settle (Option.some.inj node)
        dsimp only
        cases x.cond with
        | none =>
          cases x.lines[lineCount]? with
          | none => exact follow_alike calls h x.fwPtr
          | some l => exact .some ⟨rfl, nodes, h, rfl⟩
        | some c =>
          simp only [ne_eq, pased]
          split
          · refine AlikeResults.thenRead (ih ⟨_, h.setTag i .pased, rfl⟩) ?_
            rintro a _ ⟨nodes, h, rfl⟩
            exact leave_alike calls h i x tag
          · exact leave_alike calls h i x tag

theorem readAll_alike (h : Alike t a b) : readAll fuel n a = readAll fuel n b := by
  induction n generalizing a b with
  | zero => rfl
  | succ n ih =>
    have results := readNextLine_alike fuel h
    rw [readAll, readAll]
    generalize readNextLine fuel a = r, readNextLine fuel b = r' at results ⊢
    rcases results with @⟨⟨line, a⟩, ⟨line', b⟩, rfl, alike⟩ | _
    · cases line with
      | none => rfl
      | some line => exact congrArg (Option.map _) (ih alike)
    · rfl

theorem afterLines_core (after : afterLines fuel n a = some b) : core b = core a := by
  induction n generalizing a with
  | zero => exact Option.some.inj after ▸ rfl
  | succ n ih =>
    obtain ⟨r, read, rest⟩ := Option.bind_eq_some_iff.1 after
    have results := readNextLine_alike fuel (⟨a.nodes, ⟨rfl, rfl⟩, rfl⟩ : Alike _ a a)
    rw [read] at results
    cases results with
    | some alike =>
      obtain ⟨-, nodes, same, -⟩ := alike
      exact (ih rest).trans same.1

end Alike

theorem map_settle {nodes : List ConfNode} (clear : ∀ node ∈ nodes, node.tag ≠ .pased) :
    nodes.map settle = nodes.map untag := by
  refine List.map_congr_left fun node mem => ?_
  rw [settle, if_neg (clear node mem)]
  rfl

/-- Where no condition is being read, reading again gives what a first reading gives. -/
theorem reread_exact (file : Text) (truth : Text → Bool) (conf conf' : LsConf) (fuel n : Nat)
    (built : lsGetconf file truth = some conf) (after : afterLines fuel n conf = some conf')
    (closed : Closed conf') :
    ∀ fuel n, readAll fuel n (rewind conf.curNode conf') = readAll fuel n conf := by
  obtain ⟨b, loop, rfl⟩ := Option.map_eq_some_iff.1 built
  have clean := getconfLoop_clean loop nofun
  obtain ⟨nodes, conds, values⟩ : conf'.nodes.map untag = b.nodes.map untag ∧
      conf'.conds = b.conds ∧ conf'.values = b.conds.map truth := by
    simpa [core] using afterLines_core after
  intro fuel n
  refine readAll_alike ⟨b.nodes, ⟨rfl, ?_⟩, ?_⟩
  · rw [map_settle fun node mem => (clean node mem).1, ← nodes]
    exact (map_settle closed.2).symm
  · simp only [rewind, conds, values, closed.1]

/-- The first line stands before the condition. -/
theorem reread_exact_outside : ∃ conf conf',
    lsGetconf "a\n#if X\nb\n#endif\nc\n".toList (fun _ => true) = some conf ∧
      afterLines 9 1 conf = some conf' ∧ Closed conf' ∧
      ∀ fuel n, readAll fuel n (rewind conf.curNode conf') = readAll fuel n conf :=
  ⟨_, _, rfl, rfl, by decide +kernel,
    reread_exact "a\n#if X\nb\n#endif\nc\n".toList (fun _ => true) _ _ 9 1 rfl rfl
      (by decide +kernel)⟩

/-- A reading that stops inside of a condition: the next one skips the lines of the condition. -/
theorem reread_skips :
    let conf := lsGetconf "a\n#if X\nb\n#endif\nc\n".toList fun _ => true
    conf.bind (readAll 20 9) = some [(1, ['a']), (3, ['b']), (5, ['c'])] ∧
      (conf.bind fun conf => (afterLines 20 2 conf).bind fun conf' =>
        readAll 20 9 (rewind conf.curNode conf')) = some [(1, ['a']), (5, ['c'])] := by
  decide +kernel

end Jhlava.Conf
