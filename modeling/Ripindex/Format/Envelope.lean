import Ripindex.Platform

/-!
# Bytes, errors and the envelope

`format/mod.rs`, `format/varint.rs` (encoding) and `format/envelope.rs`: every file is
a 16-byte header, a body, and a footer with the body's length and checksum.
-/

namespace Ripindex

/-- Anything wrong with bytes being decoded, or with data the encoder refuses. -/
inductive FormatError
  | truncated
  | badMagic
  | version (v : UInt32)
  | corrupt (reason : String)
  | checksum
  | invariant (reason : String)
  deriving DecidableEq, Repr

namespace Format

/-- The `n` low bytes of `v`, little-endian. -/
def leBytes : Nat → Nat → List UInt8
  | 0, _ => []
  | n + 1, v => UInt8.ofNat v :: leBytes n (v / 256)

def u32Bytes (v : UInt32) : List UInt8 := leBytes 4 v.toNat

def u64Bytes (v : UInt64) : List UInt8 := leBytes 8 v.toNat

def i64Bytes (v : Int64) : List UInt8 := u64Bytes v.toUInt64

/-- LEB128 with at most `fuel + 1` bytes; ten bytes hold every `u64`. -/
def putVarintFuel : Nat → Nat → List UInt8
  | 0, v => [UInt8.ofNat v]
  | fuel + 1, v =>
    if v < 128 then [UInt8.ofNat v]
    else UInt8.ofNat (v % 128 + 128) :: putVarintFuel fuel (v / 128)

/-- `put_u64`. -/
def putVarint (v : Nat) : List UInt8 := putVarintFuel 9 v

/-- `put_u32`. -/
def putU32 (v : UInt32) : List UInt8 := putVarint v.toNat

def formatVersion : UInt32 := 2

def headerLen : Nat := 16

inductive Kind
  | manifest | idx | doc | del | overlay

def Kind.magic : Kind → List UInt8
  | .manifest => "FSRCHMAN".toUTF8.toList
  | .idx => "FSRCHIDX".toUTF8.toList
  | .doc => "FSRCHDOC".toUTF8.toList
  | .del => "FSRCHDEL".toUTF8.toList
  | .overlay => "FSRCHOVL".toUTF8.toList

def header (kind : Kind) (version : UInt32) : List UInt8 :=
  kind.magic ++ u32Bytes version ++ u32Bytes 0

def footer (bodyLen : UInt64) (crc : UInt32) : List UInt8 :=
  u64Bytes bodyLen ++ u32Bytes crc ++ "FSRF".toUTF8.toList

variable [Platform]

/-- Header, body and footer. -/
def sealBody (kind : Kind) (version : UInt32) (body : List UInt8) : List UInt8 :=
  header kind version ++ body ++
    footer (UInt64.ofNat body.length) (Platform.crc32 body)

end Format

end Ripindex
