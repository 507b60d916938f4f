import Ripindex.Tokenizer
import Ripindex.Index.Memory

/-!
# What the program takes from its platform

Third-party code and the machine: the checksum and hash functions, the heap
accounting of the allocator, the size of the thread pool, the number of times `take_lock`
polls before its deadline and the order in which an unstable sort leaves equal keys.
-/

namespace Ripindex

class Platform extends Unicode where
  /-- `crc32fast::hash`. -/
  crc32 : List UInt8 → UInt32
  /-- `xxhash_rust::xxh3::xxh3_64`. -/
  xxh3 : ByteArray → UInt64
  /-- `MemTermStore::memory_bytes`: depends on allocated capacities. -/
  memoryBytes : TermMap → Nat
  /-- `rayon::current_num_threads`. -/
  currentNumThreads : Nat
  /-- Polls of the lock that fit before the deadline of `take_lock`. -/
  lockPolls : Nat
  /-- `sort_unstable_by_key`: how equal keys come out is left open, but a slice that
  ascends already stays as it is. -/
  sortUnstableByKey : {α : Type} → (α → UInt32) → List α → List α
  sort_perm : ∀ {α : Type} (key : α → UInt32) (l : List α), (sortUnstableByKey key l).Perm l
  sort_sorted : ∀ {α : Type} (key : α → UInt32) (l : List α),
    (sortUnstableByKey key l).Pairwise fun a b => key a ≤ key b
  sort_of_sorted : ∀ {α : Type} (key : α → UInt32) {l : List α},
    (l.Pairwise fun a b => key a ≤ key b) → sortUnstableByKey key l = l

-- ---------------------------------------------------------------------------
-- A reference platform
-- ---------------------------------------------------------------------------

namespace Crc32

/-- One bit of the reflected polynomial division. -/
def bit (c : UInt32) : UInt32 :=
  if c &&& 1 = 1 then (c >>> 1) ^^^ 0xEDB88320 else c >>> 1

def byte (c : UInt32) (b : UInt8) : UInt32 :=
  bit (bit (bit (bit (bit (bit (bit (bit (c ^^^ b.toUInt32))))))))

/-- `f c`, with `c` evaluated first. -/
def eager (c : UInt32) (f : UInt32 → UInt32) : UInt32 :=
  match c.toNat with
  | 0 => f 0
  | n + 1 => f (UInt32.ofNat (n + 1))

/-- CRC-32 as `crc32fast` computes it. -/
def hash (bs : List UInt8) : UInt32 :=
  bs.foldl (fun c b => eager c (byte · b)) 0xFFFFFFFF ^^^ 0xFFFFFFFF

example : hash [0x31, 0x32, 0x33, 0x34, 0x35, 0x36, 0x37, 0x38, 0x39] =
    0xCBF43926 := by decide +kernel

end Crc32

/-- One thread, ASCII text, real checksums. Content hashes are all 0: it serves inputs whose
files are never read. -/
@[reducible] def Platform.reference : Platform where
  splitWordBounds := fun s => [s.toList]
  isAlphanumeric := Char.isAlphanum
  isUppercase := Char.isUpper
  isNumeric := Char.isDigit
  isAlphabetic := Char.isAlpha
  toLowercase := String.toLower
  crc32 := Crc32.hash
  xxh3 := fun _ => 0
  memoryBytes := fun _ => 0
  currentNumThreads := 1
  lockPolls := 1
  sortUnstableByKey key l := l.mergeSort fun a b => key a ≤ key b
  sort_perm _ l := List.mergeSort_perm l _
  sort_sorted key l := by
    have hSorted := @List.pairwise_mergeSort _ (fun a b => decide (key a ≤ key b))
      (fun a b c hab hbc => by
        simp only [decide_eq_true_eq] at hab hbc ⊢
        exact UInt32.le_trans hab hbc)
      (fun a b => by simpa using UInt32.le_total (key a) (key b)) l
    exact hSorted.imp fun h => by simpa using h
  sort_of_sorted key _ h := List.mergeSort_of_pairwise (h.imp fun h => by simpa using h)

end Ripindex
