import Jhlava.XdrBasics

/-! The authentication that comes with a request, `xdr_lsfAuth` of lib.xdrmisc.c, when it
reads. The data of an external authentication goes into an array of fixed size. -/
namespace Jhlava.Message
open Xdr List

/-- `EAUTH_SIZE`. -/
def eauthSize : Nat := 4096

/-- `MAXLSFNAMELEN`. -/
def maxLsfNameLen : Nat := 40

/-- The values of `kind` that have a case of their own. -/
def clientDce : BitVec 32 := 2

def clientEauth : BitVec 32 := 3

inductive AuthBody where
  | filler (value : BitVec 32)
  | authToken (data : List UInt8)
  | eauth (data : List UInt8)
  deriving DecidableEq, Repr

structure LsfAuth where
  uid : BitVec 32
  gid : BitVec 32
  lsfUserName : CString
  kind : BitVec 32
  k : AuthBody
  options : BitVec 32
  deriving DecidableEq, Repr

/-- The number of bytes that are put into the array `k.eauth.data`, with the result. -/
structure AuthRead (α : Type) where
  stored : Nat
  result : Option α × Mem

/-- `xdr_bytes` into the array, with the length that was read before as the limit. -/
def readEauth (m : Mem) : AuthRead AuthBody :=
  match getWord m with
  | (none, m) => ⟨0, none, m⟩
  | (some len, m) =>
    match getWord m with
    | (none, m) => ⟨0, none, m⟩
    | (some size, m) =>
      if size.toNat > len.toNat then ⟨0, none, m⟩
      else match getBytes size.toNat m with
        | (none, m) => ⟨0, none, m⟩
        | (some data, m) =>
          ⟨data.length, (getBytes (padding size.toNat).length m).1.map fun _ => .eauth data,
            (getBytes (padding size.toNat).length m).2⟩

/-- `xdr_bytes` into memory of the length that was read before. -/
def readAuthToken (m : Mem) : Option AuthBody × Mem :=
  match getWord m with
  | (none, m) => (none, m)
  | (some len, m) =>
    if len.toInt < 0 then (none, m)
    else (((xdrBytes len.toNat).decode m).1.map .authToken, ((xdrBytes len.toNat).decode m).2)

def readAuthBody (kind : BitVec 32) (m : Mem) : AuthRead AuthBody :=
  if kind = clientDce then ⟨0, readAuthToken m⟩
  else if kind = clientEauth then readEauth m
  else ⟨0, ((xdrArrayElement xdrWord).decode m).1.map .filler,
    ((xdrArrayElement xdrWord).decode m).2⟩

/-- `xdr_lsfAuth`. -/
def readLsfAuth (m : Mem) : AuthRead LsfAuth :=
  match getWord m with
  | (none, m) => ⟨0, none, m⟩
  | (some uid, m) =>
  match getWord m with
  | (none, m) => ⟨0, none, m⟩
  | (some gid, m) =>
  match (xdrString maxLsfNameLen).decode m with
  | (none, m) => ⟨0, none, m⟩
  | (some lsfUserName, m) =>
  match getWord m with
  | (none, m) => ⟨0, none, m⟩
  | (some kind, m) =>
  match readAuthBody kind m with
  | ⟨stored, none, m⟩ => ⟨stored, none, m⟩
  | ⟨stored, some k, m⟩ =>
  match getWord m with
  | (none, m) => ⟨stored, none, m⟩
  | (some options, m) => ⟨stored, some ⟨uid, gid, lsfUserName, kind, k, options⟩, m⟩

/-! ### Which messages overrun the array -/

/-- Neither the bytes that are stored nor the length that is left behind are more than the
array holds. -/
structure WithinEauth (m : Mem) : Prop where
  stored : (readLsfAuth m).stored ≤ eauthSize
  length : ∀ auth data, (readLsfAuth m).result.1 = some auth → auth.k = .eauth data →
    data.length ≤ eauthSize

def Oversized (m : Mem) : Prop :=
  ∃ (uid gid len : BitVec 32) (name fill data rest : List UInt8),
    m.left = be32 uid ++ (be32 gid ++ ((be32 (BitVec.ofNat 32 name.length) ++ (name ++ fill)) ++
      (be32 clientEauth ++ (be32 len ++ (be32 (BitVec.ofNat 32 data.length) ++
        (data ++ rest)))))) ∧
    name.length ≤ maxLsfNameLen ∧ fill.length = (padding name.length).length ∧
    data.length ≤ len.toNat ∧ eauthSize < data.length

variable {m : Mem}

theorem readEauth_stored {m₁ m₂ m₃ : Mem} {len : BitVec 32} {data : List UInt8}
    (isLen : Passed m (be32 len) m₁) (isSize : Passed m₁ (be32 (BitVec.ofNat 32 data.length)) m₂)
    (isData : Passed m₂ data m₃) (le : data.length ≤ len.toNat) :
    (readEauth m).stored = data.length := by
  have small : data.length < 2 ^ 31 := by
    have := m₂.small
    have := isData.length_le
    omega
  rw [readEauth, getWord_passed isLen]
  dsimp only
  rw [getWord_passed isSize]
  dsimp only
  rw [toNat_ofNat_small small, if_neg (Nat.not_lt.2 le), getBytes_passed isData]

theorem readEauth_cases (m : Mem) :
    (readEauth m).stored = 0 ∨
      ∃ (len : BitVec 32) (data : List UInt8) (m' : Mem), (readEauth m).stored = data.length ∧
        data.length ≤ len.toNat ∧
        Passed m (be32 len ++ (be32 (BitVec.ofNat 32 data.length) ++ data)) m' := by
  unfold readEauth
  split
  · exact .inl rfl
  next len m₁ isLen =>
    split
    · exact .inl rfl
    next size m₂ isSize =>
      split_ifs with more
      · exact .inl rfl
      · split
        · exact .inl rfl
        next data m₃ isData =>
          obtain ⟨dataLen, passed⟩ := getBytes_some isData
          refine .inr ⟨len, data, m₃, rfl, by omega, passed_append_iff.2 ⟨m₁, getWord_some isLen,
            passed_append_iff.2 ⟨m₂, ?_, passed⟩⟩⟩
          rw [dataLen, BitVec.ofNat_toNat]
          exact getWord_some isSize

theorem readAuthBody_eauth {kind : BitVec 32} {data : List UInt8}
    (read : (readAuthBody kind m).result.1 = some (.eauth data)) :
    (readAuthBody kind m).stored = data.length := by
  unfold readAuthBody at read ⊢
  split_ifs at read ⊢
  · unfold readAuthToken at read
    split at read
    · cases read
    · split_ifs at read
      obtain ⟨_, _, same⟩ := Option.map_eq_some_iff.1 read
      cases same
  · unfold readEauth at read ⊢
    split at read
    · cases read
    next isLen =>
      split at read
      · cases read
      next isSize =>
        split_ifs at read with more
        split at read
        · cases read
        next isData =>
          obtain ⟨_, _, same⟩ := Option.map_eq_some_iff.1 read
          cases same
          rw [if_neg more]
  · obtain ⟨_, _, same⟩ := Option.map_eq_some_iff.1 read
    cases same

/-- What stands before the part that depends on the kind. -/
structure HeadRead (m : Mem) (kind : BitVec 32) (m' : Mem) : Prop where
  words : ∃ (uid gid : BitVec 32) (name : CString) (m₁ m₂ m₃ : Mem),
    getWord m = (some uid, m₁) ∧ getWord m₁ = (some gid, m₂) ∧
    (xdrString maxLsfNameLen).decode m₂ = (some name, m₃) ∧ getWord m₃ = (some kind, m')

theorem readLsfAuth_of_head {m' : Mem} {kind : BitVec 32} (head : HeadRead m kind m') :
    (readLsfAuth m).stored = (readAuthBody kind m').stored ∧
      ∀ auth, (readLsfAuth m).result.1 = some auth →
        (readAuthBody kind m').result.1 = some auth.k := by
  obtain ⟨uid, gid, name, m₁, m₂, m₃, isUid, isGid, isName, isKind⟩ := head.words
  rw [readLsfAuth, isUid]
  dsimp only
  rw [isGid]
  dsimp only
  rw [isName]
  dsimp only
  rw [isKind]
  dsimp only
  rcases readAuthBody kind m' with ⟨stored, _ | k, m₅⟩
  · exact ⟨rfl, fun _ none => by cases none⟩
  · dsimp only
    rcases getWord m₅ with ⟨_ | options, m₆⟩
    · exact ⟨rfl, fun _ none => by cases none⟩
    · refine ⟨rfl, fun auth read => ?_⟩
      cases read
      rfl

theorem readLsfAuth_cases (m : Mem) :
    ((readLsfAuth m).stored = 0 ∧ (readLsfAuth m).result.1 = none) ∨
      ∃ kind m', HeadRead m kind m' := by
  unfold readLsfAuth
  split
  · exact .inl ⟨rfl, rfl⟩
  next uid m₁ isUid =>
    split
    · exact .inl ⟨rfl, rfl⟩
    next gid m₂ isGid =>
      split
      · exact .inl ⟨rfl, rfl⟩
      next name m₃ isName =>
        split
        · exact .inl ⟨rfl, rfl⟩
        next kind m₄ isKind =>
          exact .inr ⟨kind, m₄, ⟨uid, gid, name, m₁, m₂, m₃, isUid, isGid, isName, isKind⟩⟩

theorem oversized_stored (oversized : Oversized m) : eauthSize < (readLsfAuth m).stored := by
  obtain ⟨uid, gid, len, name, fill, data, rest, isLeft, nameLe, fillLen, dataLe, more⟩ := oversized
  obtain ⟨end', atEnd⟩ : ∃ m' : Mem, Passed m m.left m' :=
    ⟨⟨m.before ++ m.left, [], by simpa using m.small⟩, rfl, (append_nil _).symm⟩
  rw [isLeft] at atEnd
  obtain ⟨m₁, isUid, atEnd⟩ := passed_append_iff.1 atEnd
  obtain ⟨m₂, isGid, atEnd⟩ := passed_append_iff.1 atEnd
  obtain ⟨m₃, isName, atEnd⟩ := passed_append_iff.1 atEnd
  obtain ⟨m₄, isKind, atEnd⟩ := passed_append_iff.1 atEnd
  obtain ⟨m₅, isLen, atEnd⟩ := passed_append_iff.1 atEnd
  obtain ⟨m₆, isSize, atEnd⟩ := passed_append_iff.1 atEnd
  obtain ⟨m₇, isData, -⟩ := passed_append_iff.1 atEnd
  have head : HeadRead m clientEauth m₄ :=
    ⟨uid, gid, cString name, m₁, m₂, m₃, getWord_passed isUid, getWord_passed isGid,
      xdrString_filled nameLe fillLen isName, getWord_passed isKind⟩
  rw [(readLsfAuth_of_head head).1, readAuthBody, if_neg (by decide), if_pos rfl,
    readEauth_stored isLen isSize isData dataLe]
  exact more

theorem stored_oversized (more : eauthSize < (readLsfAuth m).stored) : Oversized m := by
  rcases readLsfAuth_cases m with ⟨none, -⟩ | ⟨kind, m₄, head⟩
  · omega
  rw [(readLsfAuth_of_head head).1, readAuthBody] at more
  split_ifs at more with dce eauth
  · exact absurd more (Nat.not_lt_zero _)
  · obtain ⟨uid, gid, s, m₁, m₂, m₃, isUid, isGid, isName, isKind⟩ := head.words
    obtain ⟨name, fill, nameLe, fillLen, namePassed⟩ := xdrString_some isName
    rcases readEauth_cases m₄ with none | ⟨len, data, m₅, isStored, le, passed⟩
    · omega
    · refine ⟨uid, gid, len, name, fill, data, m₅.left, ?_, nameLe, fillLen, le, isStored ▸ more⟩
      rw [(getWord_some isUid).left, (getWord_some isGid).left, namePassed.left,
        (getWord_some isKind).left, passed.left, eauth]
      simp only [append_assoc]
  · exact absurd more (Nat.not_lt_zero _)

/-- The array is overrun by exactly the messages whose external authentication has more data
than it holds: the limit of the read is a length from the message. -/
theorem withinEauth_iff (m : Mem) : WithinEauth m ↔ ¬ Oversized m := by
  constructor
  · intro within oversized
    exact Nat.not_le_of_lt (oversized_stored oversized) within.stored
  · intro fits
    have stored : (readLsfAuth m).stored ≤ eauthSize :=
      Nat.le_of_not_lt fun more => fits (stored_oversized more)
    refine ⟨stored, fun auth data read isEauth => ?_⟩
    rcases readLsfAuth_cases m with ⟨-, none⟩ | ⟨kind, m', head⟩
    · rw [none] at read
      cases read
    · obtain ⟨same, body⟩ := readLsfAuth_of_head head
      have isBody := body auth read
      rw [isEauth] at isBody
      rw [← readAuthBody_eauth isBody, ← same]
      exact stored

def longEauth : Mem where
  before := []
  left := be32 0 ++ (be32 0 ++ ((be32 0 ++ ([] ++ [])) ++ (be32 clientEauth ++ (be32 4097 ++
    (be32 4097 ++ (List.replicate 4097 0 ++ be32 0))))))
  small := by
    simp only [length_append, length_nil, be32_length, length_replicate]
    decide

theorem longEauth_not_within : ¬ WithinEauth longEauth := by
  intro within
  refine Nat.not_le_of_lt (oversized_stored ?_) within.stored
  refine ⟨0, 0, 4097, [], [], List.replicate 4097 0, be32 0, ?_, by decide, rfl, ?_, ?_⟩
  · rw [length_replicate]
    rfl
  · rw [length_replicate]
    decide
  · rw [length_replicate]
    decide

end Jhlava.Message
