import Ripindex.Format.Envelope

/-!
# The deletion bitmap

`format/del.rs`: one bit for each local doc id of a segment.
-/

namespace Ripindex

/-- Mutable bitmap used to build the next generation of deletions. -/
structure Bitmap where
  numDocs : UInt32
  bits : List Bool
  length_bits : bits.length = numDocs.toNat
  deriving DecidableEq

namespace Bitmap

@[ext] theorem ext {b c : Bitmap} (hBits : b.bits = c.bits) : b = c := by
  rcases b with ⟨n, bits, h⟩
  rcases c with ⟨m, bits', h'⟩
  simp only at hBits
  subst hBits
  have : n = m := UInt32.toNat_inj.mp (h.symm.trans h')
  subst this
  rfl

/-- No deletion among `numDocs` documents. -/
def new (numDocs : UInt32) : Bitmap where
  numDocs := numDocs
  bits := List.replicate numDocs.toNat false
  length_bits := List.length_replicate

def get (b : Bitmap) (i : UInt32) : Bool :=
  b.bits.getD i.toNat false

/-- Set a bit; out-of-range ids are ignored. -/
def set (b : Bitmap) (i : UInt32) : Bitmap where
  numDocs := b.numDocs
  bits := b.bits.set i.toNat true
  length_bits := by rw [List.length_set, b.length_bits]

/-- Whether `set` newly sets the bit: what it returns. -/
def newlySet (b : Bitmap) (i : UInt32) : Bool :=
  i < b.numDocs && !b.get i

def count (b : Bitmap) : UInt32 :=
  UInt32.ofNat (b.bits.count true)

/-- Eight bits a byte, the lowest first. -/
def packBits : Nat → List Bool → List UInt8
  | 0, _ => []
  | n + 1, bits =>
    UInt8.ofNat ((bits.take 8).foldr (fun b acc => b.toNat + 2 * acc) 0) ::
      packBits n (bits.drop 8)

/-- The body of the `.del` file. -/
def body (b : Bitmap) : List UInt8 :=
  Format.u32Bytes b.numDocs ++ Format.u32Bytes b.count ++
    packBits ((b.numDocs.toNat + 7) / 8) b.bits

end Bitmap

end Ripindex
