import Jhlava.CValues

/-! Receive side data of a channel (lib.channel.h) and the header that
precedes every message (lib.hdr.h, `xdr_LSFHeader` of lib.xdr.c). -/
namespace Jhlava.Channel

/-- `LSF_HEADER_LEN`, the size of `struct LSFHeader`. -/
def lsfHeaderLen : Nat := 16

structure LSFHeader where
  opCode : BitVec 16
  refCode : BitVec 16
  length : BitVec 32
  version : BitVec 16
  reserved : BitVec 16
  reserved0 : BitVec 32
  deriving DecidableEq, Repr

def xdrUInt : List UInt8 → Option (BitVec 32 × List UInt8)
  | b0 :: b1 :: b2 :: b3 :: rest =>
    some (b0.toBitVec ++ b1.toBitVec ++ b2.toBitVec ++ b3.toBitVec, rest)
  | _ => none

/-- The decoding direction of `xdr_LSFHeader`. -/
def xdrLSFHeader (bs : List UInt8) : Option LSFHeader := do
  let (word1, bs) ← xdrUInt bs
  let (word2, bs) ← xdrUInt bs
  let (word3, bs) ← xdrUInt bs
  let (word4, _) ← xdrUInt bs
  return {
    refCode := (word1 >>> 16).truncate 16
    opCode := (word1 &&& 0xFFFF#32).truncate 16
    length := word2
    version := (word3 >>> 16).truncate 16
    reserved := (word3 &&& 0xFFFF#32).truncate 16
    reserved0 := word4 }

/-- `struct Buffer`. `data` holds the bytes stored so far and `size` is the
size of the block it was allocated with. -/
structure Buffer where
  data : List UInt8
  size : Int
  pos : Int
  len : Int
  deriving DecidableEq, Repr

/-- `newBuf`: every field is zero. -/
def newBuf : Buffer := { data := [], size := 0, pos := 0, len := 0 }

/-- The values of `chanerr` that `doread` sets. -/
inductive ChanErr where
  | lseMalloc
  | chaneConnReset
  | chaneBadHdr
  deriving DecidableEq, Repr

/-- The receive side of `struct chanData`. `shut` is set once an exception was
reported in `emask`: every caller of `chanSelect_` then closes the channel. -/
structure Chan where
  recv : List Buffer
  chanerr : Option ChanErr
  shut : Bool
  deriving DecidableEq, Repr

def Chan.init : Chan := { recv := [], chanerr := none, shut := false }

end Jhlava.Channel
