import Jhlava.ConfTree
import Jhlava.LimMaster

/-! `resolveBaseNegHosts` of lib.conf.c: the hosts of a table without those a list negates. -/
namespace Jhlava.NegHosts
open TextScan Conf Lim List

/-- The words that the calls of `getNextWord_` return. -/
def getWords : Nat → Text → List Text
  | 0, _ => []
  | fuel + 1, buffer =>
    match getNextWord buffer with
    | (none, _) => []
    | (some word, rest) => word :: getWords fuel rest

/-- `outTable`; no result for a name that may not be negated, and for the remainder by the size of
an empty table. -/
def negNames (inTable : List Text) : List Text → Option (List Text)
  | [] => some []
  | ('~' :: name) :: words =>
    if name.head?.any Char.isAlphanum ∧ inTable ≠ [] then (negNames inTable words).map (name :: ·)
    else none
  | _ :: words => negNames inTable words

/-- The loop over `inTable` for one name: the hosts that are not `NULL`, and `size`. -/
def dropHost (name : Text) : List Text → Int → List Text × Int
  | [], size => ([], size)
  | host :: table, size =>
    if equalHost host name then dropHost name table (size - host.length)
    else
      let rest := dropHost name table size
      (host :: rest.1, rest.2)

/-- What is returned: the string and the number of hosts, with the characters that were allocated
for the string and those that were written, the last `strcat` included. -/
structure Resolved where
  outHosts : Text
  num : Nat
  allocated : Int
  written : Int
  deriving DecidableEq, Repr

def strlens (hosts : List Text) : Int := (hosts.map fun host => (host.length : Int)).sum

def resolveBaseNegHosts (inHosts : Text) (inTable : List Text) : Option Resolved :=
  match getWords (inHosts.length + 1) inHosts with
  | [] => none
  | word :: words =>
    if word ≠ "all".toList then none
    else
      (negNames inTable words).map fun names =>
        let left := names.foldl (fun left name => dropHost name left.1 left.2)
          (inTable, strlens inTable)
        let out := left.1.flatMap fun host => host ++ [' ']
        { outHosts := out.dropLast
          num := left.1.length
          allocated := left.2 + inTable.length
          written := out.length + 1 }

/-! ### The hosts that are left -/

def negated (names : List Text) (host : Text) : Bool := names.any fun name => equalHost host name

variable {inTable names : List Text}

theorem strlens_cons (host : Text) (table : List Text) :
    strlens (host :: table) = host.length + strlens table := sum_cons

theorem dropHost_eq (name : Text) (table : List Text) (size : Int) :
    dropHost name table size = (table.filter fun host => !equalHost host name,
      size - strlens table + strlens (table.filter fun host => !equalHost host name)) := by
  induction table generalizing size with
  | nil => simp [dropHost]
  | cons host table ih =>
    rw [dropHost, ih, ih, strlens_cons]
    cases same : equalHost host name with
    | true =>
      simp [same]
      omega
    | false =>
      simp [same, strlens_cons]
      omega

theorem foldl_dropHost (names table : List Text) :
    names.foldl (fun left name => dropHost name left.1 left.2) (table, strlens table) =
      (table.filter fun host => !negated names host,
        strlens (table.filter fun host => !negated names host)) := by
  induction names generalizing table with
  | nil => simp [negated]
  | cons name names ih =>
    rw [foldl_cons, dropHost_eq, Int.sub_self, Int.zero_add, ih]
    simp [negated, Bool.and_comm]

theorem negNames_list (nonempty : inTable ≠ [])
    (alnum : ∀ name ∈ names, name.head?.any Char.isAlphanum) :
    negNames inTable (names.map ('~' :: ·)) = some names := by
  induction names with
  | nil => rfl
  | cons name names ih =>
    obtain ⟨first, rest⟩ := forall_mem_cons.mp alnum
    rw [map_cons, negNames, if_pos ⟨first, nonempty⟩, ih rest]
    rfl

theorem length_out (hosts : List Text) :
    ((hosts.flatMap fun host => host ++ [' ']).length : Int) = strlens hosts + hosts.length := by
  induction hosts with
  | nil => rfl
  | cons host hosts ih =>
    rw [flatMap_cons, length_append, strlens_cons, length_append, length_singleton, length_cons]
    omega

theorem dropLast_out (hosts : List Text) :
    (hosts.flatMap fun host => host ++ [' ']).dropLast = [' '].intercalate hosts := by
  induction hosts with
  | nil => rfl
  | cons host hosts ih =>
    cases hosts with
    | nil => simp
    | cons next hosts =>
      have some_ : ((next :: hosts).flatMap fun host => host ++ [' ']) ≠ [] := by simp
      rw [flatMap_cons, dropLast_append_of_ne_nil some_, ih, intercalate_cons_cons]

/-- What is written fits what was allocated exactly if a host is negated. -/
theorem resolveBaseNegHosts_exact_iff (inHosts : Text) (inTable names : List Text)
    (nonempty : inTable ≠ [])
    (list : getWords (inHosts.length + 1) inHosts = "all".toList :: names.map ('~' :: ·))
    (alnum : ∀ name ∈ names, name.head?.any Char.isAlphanum) :
    (∃ r, resolveBaseNegHosts inHosts inTable = some r ∧
      r.outHosts = [' '].intercalate (inTable.filter fun host => !negated names host) ∧
      r.num = (inTable.filter fun host => !negated names host).length ∧
      r.written ≤ r.allocated) ↔ ∃ host ∈ inTable, negated names host := by
  have result : resolveBaseNegHosts inHosts inTable = some
      { outHosts := [' '].intercalate (inTable.filter fun host => !negated names host)
        num := (inTable.filter fun host => !negated names host).length
        allocated := strlens (inTable.filter fun host => !negated names host) + inTable.length
        written := strlens (inTable.filter fun host => !negated names host) +
          (inTable.filter fun host => !negated names host).length + 1 } := by
    rw [resolveBaseNegHosts, list]
    simp only [ne_eq, not_true_eq_false, if_false, negNames_list nonempty alnum, Option.map_some,
      foldl_dropHost, dropLast_out, length_out]
  have left := length_filter_lt_length_iff_exists (l := inTable)
    (p := fun host => !negated names host)
  simp only [Bool.not_eq_true', Bool.not_eq_false] at left
  rw [result, ← left]
  constructor
  · rintro ⟨_, ⟨⟩, -, -, fits⟩
    dsimp only at fits
    omega
  · intro lt
    refine ⟨_, rfl, rfl, rfl, ?_⟩
    dsimp only
    omega

theorem resolveBaseNegHosts_exact_iff_one :
    (∃ r, resolveBaseNegHosts "all ~b".toList ["a".toList, "b".toList] = some r ∧
      r.outHosts = [' '].intercalate (["a".toList, "b".toList].filter fun host =>
        !negated ["b".toList] host) ∧
      r.num = (["a".toList, "b".toList].filter fun host => !negated ["b".toList] host).length ∧
      r.written ≤ r.allocated) ↔ ∃ host ∈ ["a".toList, "b".toList], negated ["b".toList] host :=
  resolveBaseNegHosts_exact_iff _ _ _ (by decide) (by decide +kernel) (by decide)

/-- With no host negated, the blank behind the last host takes the last character and the `NUL`
stands behind the allocated ones. -/
theorem noneNegated_overruns :
    resolveBaseNegHosts "all ~c".toList ["a".toList, "b".toList] =
      some { outHosts := "a b".toList, num := 2, allocated := 4, written := 5 } := by
  decide +kernel

end Jhlava.NegHosts
