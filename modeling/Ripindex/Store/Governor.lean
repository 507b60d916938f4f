import Mathlib.Algebra.Order.Floor.Semiring
import Mathlib.Data.Rat.Floor
import Mathlib.Tactic.Linarith
import Mathlib.Tactic.FieldSimp
import Mathlib.Tactic.Ring

/-!
# The governor

`store/governor.rs`: the token bucket that caps the bytes of background work, over rational
numbers in place of floating point ones, and a caller that sleeps as long as it is told to
before it does the work and calls again. That is how the merge task uses `Governor::throttle`,
which passes its calls on to the bucket unless the machine is on battery or short of memory.

A call that waits leaves an empty bucket with the time of the call, so that the tokens of the
wait, which the call has used already, are there for the next call as well.

## Results

* `TokenBucket.Ok.spend` — a bucket holds between nothing and a second's worth;
* `Paid.spend`, `Paid.next` — what was granted is covered by the burst and the time gone by;
* `rate_capped` — the cap, where no call comes too soon after one that had to wait.
-/

namespace Ripindex

/-- Tokens are bytes; `capacity` is what comes in within a second. -/
structure TokenBucket where
  capacity : ℚ
  tokens : ℚ
  ratePerMs : ℚ
  lastMs : Nat

namespace TokenBucket

def new (rateBytesPerSec nowMs : Nat) : TokenBucket :=
  let capacity : ℚ := (max rateBytesPerSec 1 : Nat)
  { capacity := capacity, tokens := capacity, ratePerMs := capacity / 1000, lastMs := nowMs }

def refill (b : TokenBucket) (nowMs : Nat) : TokenBucket :=
  let dt : ℚ := (nowMs - b.lastMs : Nat)
  { b with tokens := min (b.tokens + dt * b.ratePerMs) b.capacity, lastMs := nowMs }

/-- The milliseconds to wait, and the bucket afterwards. -/
def spend (b : TokenBucket) (nowMs bytes : Nat) : Nat × TokenBucket :=
  let b := b.refill nowMs
  if (bytes : ℚ) ≤ b.tokens then (0, { b with tokens := b.tokens - bytes })
  else
    let deficit := bytes - b.tokens
    (⌈deficit / b.ratePerMs⌉₊, { b with tokens := 0 })

end TokenBucket

-- ---------------------------------------------------------------------------
-- Callers
-- ---------------------------------------------------------------------------

namespace TokenBucket

/-- A call of `spend`. -/
structure Call where
  nowMs : Nat
  bytes : Nat
  deriving DecidableEq, Repr

/-- Work that was allowed to start. -/
structure Start where
  atMs : Nat
  bytes : Nat
  deriving DecidableEq, Repr

/-- When the work of each call may start. -/
def starts : TokenBucket → List Call → List Start
  | _, [] => []
  | b, c :: cs =>
    let (wait, b') := b.spend c.nowMs c.bytes
    ⟨c.nowMs + wait, c.bytes⟩ :: starts b' cs

/-- The caller sleeps before it works and calls again; it is asleep until `free`. -/
def Patient : TokenBucket → Nat → List Call → Prop
  | _, _, [] => True
  | b, free, c :: cs =>
    free ≤ c.nowMs ∧
      Patient (b.spend c.nowMs c.bytes).2 (c.nowMs + (b.spend c.nowMs c.bytes).1) cs

instance decidablePatient : ∀ b free cs, Decidable (Patient b free cs)
  | _, _, [] => inferInstanceAs (Decidable True)
  | b, free, c :: cs =>
    have := decidablePatient (b.spend c.nowMs c.bytes).2
      (c.nowMs + (b.spend c.nowMs c.bytes).1) cs
    inferInstanceAs (Decidable (free ≤ c.nowMs ∧ _))

/-- The work that was allowed to start by the time `t`. -/
def startedBy (t : Nat) (ss : List Start) : List Start := ss.filter fun s => s.atMs ≤ t

def totalBytes (ss : List Start) : Nat := (ss.map Start.bytes).sum

def lastBytes (ss : List Start) : Nat := ss.getLast?.elim 0 Start.bytes

/-- At any time what was started is at most a burst, what the rate gives since the start, and
the size of the last request. -/
def Capped (b : TokenBucket) (t₀ : Nat) (cs : List Call) : Prop :=
  ∀ t : Nat, (totalBytes (startedBy t (b.starts cs)) : ℚ) ≤
    b.capacity + b.ratePerMs * (t - t₀ : Nat) + lastBytes (startedBy t (b.starts cs))

/-- The call `c` finds enough in the bucket; or what it finds and what comes in until a second
before the next call `d` is enough, and when `d` is made the bucket has had time to fill. -/
def Covered (b : TokenBucket) (c d : Call) : Prop :=
  let balance := (b.refill c.nowMs).tokens
  c.bytes ≤ balance ∨ (c.nowMs + 1000 ≤ d.nowMs ∧
    c.bytes ≤ balance + b.ratePerMs * (d.nowMs - (c.nowMs + 1000) : Nat))

/-- Every call with two more behind it is covered. -/
def Spaced : TokenBucket → List Call → Prop
  | b, c :: d :: e :: cs => b.Covered c d ∧ Spaced (b.spend c.nowMs c.bytes).2 (d :: e :: cs)
  | _, _ => True

instance (b : TokenBucket) (c d : Call) : Decidable (b.Covered c d) :=
  inferInstanceAs (Decidable (_ ∨ _))

instance decidableSpaced : ∀ b cs, Decidable (Spaced b cs)
  | _, [] | _, [_] | _, [_, _] => inferInstanceAs (Decidable True)
  | b, c :: d :: e :: cs =>
    have := decidableSpaced (b.spend c.nowMs c.bytes).2 (d :: e :: cs)
    inferInstanceAs (Decidable (b.Covered c d ∧ _))

end TokenBucket

-- ---------------------------------------------------------------------------
-- One call
-- ---------------------------------------------------------------------------

namespace TokenBucket

/-- A bucket in use. -/
structure Ok (b : TokenBucket) : Prop where
  rate : 0 < b.ratePerMs
  capacity : b.capacity = 1000 * b.ratePerMs
  nonneg : 0 ≤ b.tokens
  le : b.tokens ≤ b.capacity

variable {b : TokenBucket} {nowMs bytes : Nat}

theorem ok_new (rateBytesPerSec nowMs : Nat) : (new rateBytesPerSec nowMs).Ok := by
  have hPos : (0 : ℚ) < (max rateBytesPerSec 1 : Nat) := by
    exact_mod_cast Nat.lt_of_lt_of_le Nat.zero_lt_one (Nat.le_max_right _ _)
  refine ⟨?_, ?_, ?_, ?_⟩
  · show (0 : ℚ) < (max rateBytesPerSec 1 : Nat) / 1000
    positivity
  · show ((max rateBytesPerSec 1 : Nat) : ℚ) = 1000 * ((max rateBytesPerSec 1 : Nat) / 1000)
    ring
  · exact hPos.le
  · exact le_refl _

@[simp] theorem refill_capacity (b : TokenBucket) (nowMs : Nat) :
    (b.refill nowMs).capacity = b.capacity := rfl

@[simp] theorem refill_ratePerMs (b : TokenBucket) (nowMs : Nat) :
    (b.refill nowMs).ratePerMs = b.ratePerMs := rfl

theorem Ok.refill (h : b.Ok) (nowMs : Nat) : (b.refill nowMs).Ok := by
  refine ⟨h.rate, h.capacity, le_min ?_ (h.nonneg.trans h.le), min_le_right _ _⟩
  have hIn := mul_nonneg (Nat.cast_nonneg (α := ℚ) (nowMs - b.lastMs)) h.rate.le
  linarith [h.nonneg]

/-- A call that the bucket covers. -/
theorem spend_of_le (h : (bytes : ℚ) ≤ (b.refill nowMs).tokens) :
    b.spend nowMs bytes =
      (0, { b.refill nowMs with tokens := (b.refill nowMs).tokens - bytes }) := if_pos h

/-- A call that has to wait. -/
theorem spend_of_lt (h : ¬ (bytes : ℚ) ≤ (b.refill nowMs).tokens) :
    b.spend nowMs bytes = (⌈(bytes - (b.refill nowMs).tokens) / b.ratePerMs⌉₊,
      { b.refill nowMs with tokens := 0 }) := if_neg h

theorem Ok.spend (h : b.Ok) (nowMs bytes : Nat) :
    (b.spend nowMs bytes).2.Ok ∧ (b.spend nowMs bytes).2.capacity = b.capacity ∧
      (b.spend nowMs bytes).2.ratePerMs = b.ratePerMs ∧
      (b.spend nowMs bytes).2.lastMs = nowMs := by
  have hFull := h.refill nowMs
  by_cases hFits : (bytes : ℚ) ≤ (b.refill nowMs).tokens
  · rw [spend_of_le hFits]
    refine ⟨⟨h.rate, h.capacity, sub_nonneg.mpr hFits, ?_⟩, rfl, rfl, rfl⟩
    have hBytes : (0 : ℚ) ≤ bytes := Nat.cast_nonneg _
    show (b.refill nowMs).tokens - bytes ≤ b.capacity
    have hLe : (b.refill nowMs).tokens ≤ b.capacity := hFull.le
    linarith
  · rw [spend_of_lt hFits]
    exact ⟨⟨h.rate, h.capacity, le_refl 0, h.nonneg.trans h.le⟩, rfl, rfl, rfl⟩

/-- What a call has to wait for comes in while it waits. -/
theorem le_wait (h : b.Ok) (nowMs bytes : Nat) :
    (bytes : ℚ) + (b.spend nowMs bytes).2.tokens ≤
      (b.refill nowMs).tokens + b.ratePerMs * (b.spend nowMs bytes).1 := by
  by_cases hFits : (bytes : ℚ) ≤ (b.refill nowMs).tokens
  · rw [spend_of_le hFits]
    simp
  · rw [spend_of_lt hFits]
    have hCeil := Nat.le_ceil ((bytes - (b.refill nowMs).tokens) / b.ratePerMs)
    rw [div_le_iff₀ h.rate] at hCeil
    show (bytes : ℚ) + 0 ≤ _
    linarith

-- ---------------------------------------------------------------------------
-- What is paid for
-- ---------------------------------------------------------------------------

/-- `granted` bytes and what the bucket holds at the call `c` are covered by a burst and the time
gone by since `t₀`. -/
def Paid (b : TokenBucket) (t₀ : ℚ) (granted : ℚ) (c : Call) : Prop :=
  granted + (b.refill c.nowMs).tokens ≤ b.capacity + b.ratePerMs * (c.nowMs - t₀)

variable {t₀ granted : ℚ} {c d : Call}

/-- With the call, when its work may start. -/
theorem Paid.spend (h : b.Ok) (hPaid : b.Paid t₀ granted c) :
    granted + c.bytes + (b.spend c.nowMs c.bytes).2.tokens ≤ b.capacity +
      b.ratePerMs * ((c.nowMs + (b.spend c.nowMs c.bytes).1 : Nat) - t₀) := by
  have hWait := le_wait h c.nowMs c.bytes
  unfold Paid at hPaid
  push_cast
  linarith

/-- A covered call leaves what is paid for at the next one. -/
theorem Paid.next (h : b.Ok) (hPaid : b.Paid t₀ granted c) (hCovered : b.Covered c d)
    (hLater : c.nowMs + (b.spend c.nowMs c.bytes).1 ≤ d.nowMs) :
    (b.spend c.nowMs c.bytes).2.Paid t₀ (granted + c.bytes) d := by
  obtain ⟨-, hCap, hRate, hLast⟩ := h.spend c.nowMs c.bytes
  unfold Paid at hPaid ⊢
  rw [hCap, hRate]
  by_cases hFits : (c.bytes : ℚ) ≤ (b.refill c.nowMs).tokens
  · -- Nothing was waited for; what comes in until the next call is in the time gone by.
    rw [spend_of_le hFits] at hLater ⊢
    have hTime : c.nowMs ≤ d.nowMs := hLater
    have hIn : ∀ b' : TokenBucket, b'.lastMs = c.nowMs → b'.ratePerMs = b.ratePerMs →
        (b'.refill d.nowMs).tokens ≤ b'.tokens + b.ratePerMs * ((d.nowMs : ℚ) - c.nowMs) := by
      intro b' hLast' hRate'
      rw [← Nat.cast_sub hTime, ← hLast', ← hRate', mul_comm]
      exact min_le_left _ _
    have hTokens := hIn { b.refill c.nowMs with tokens := (b.refill c.nowMs).tokens - c.bytes }
      rfl rfl
    have hHeld : ({ b.refill c.nowMs with tokens := (b.refill c.nowMs).tokens - c.bytes } :
      TokenBucket).tokens = (b.refill c.nowMs).tokens - c.bytes := rfl
    linarith
  · -- The bucket may be full again, and a second has paid for that.
    obtain ⟨hTime, hSecond⟩ := hCovered.resolve_left hFits
    have hFull : ((b.spend c.nowMs c.bytes).2.refill d.nowMs).tokens ≤ b.capacity := by
      rw [← hCap]
      exact min_le_right _ _
    rw [Nat.cast_sub hTime] at hSecond
    push_cast at hSecond
    have hCapacity := h.capacity
    linarith

-- ---------------------------------------------------------------------------
-- Runs
-- ---------------------------------------------------------------------------

variable {free t : Nat} {cs : List Call} {s : Start} {ss : List Start}

/-- No work starts before the caller is awake. -/
theorem Patient.le_starts (h : b.Patient free cs) : ∀ s ∈ b.starts cs, free ≤ s.atMs := by
  induction cs generalizing b free with
  | nil =>
    intro s hs
    cases hs
  | cons c cs ih =>
    obtain ⟨hFree, hRest⟩ := h
    intro s hs
    rcases List.mem_cons.mp hs with rfl | hs
    · exact Nat.le_add_right_of_le hFree
    · exact Nat.le_trans (Nat.le_add_right_of_le hFree) (ih hRest s hs)

theorem startedBy_cons_of_le (h : s.atMs ≤ t) : startedBy t (s :: ss) = s :: startedBy t ss :=
  List.filter_cons_of_pos (by simpa using h)

theorem startedBy_cons_of_lt (h : ¬ s.atMs ≤ t) : startedBy t (s :: ss) = startedBy t ss :=
  List.filter_cons_of_neg (by simpa using h)

theorem startedBy_singleton (h : startedBy t [s] ≠ []) : startedBy t [s] = [s] := by
  by_cases hBy : s.atMs ≤ t
  · exact startedBy_cons_of_le hBy
  · exact absurd (startedBy_cons_of_lt hBy) h

theorem totalBytes_cons (s : Start) (ss : List Start) :
    totalBytes (s :: ss) = s.bytes + totalBytes ss := List.sum_cons

theorem lastBytes_cons (hNe : ss ≠ []) (s : Start) : lastBytes (s :: ss) = lastBytes ss := by
  unfold lastBytes
  rw [List.getLast?_cons, List.getLast?_eq_some_getLast hNe]
  rfl

/-- The cap, after `granted` bytes that are paid for at the first call. -/
theorem Paid.capped (h : b.Ok) (hPatient : b.Patient free cs) (hSpaced : b.Spaced cs)
    (hPaid : ∀ c ∈ cs.head?, b.Paid t₀ granted c) (hSome : startedBy t (b.starts cs) ≠ []) :
    granted + totalBytes (startedBy t (b.starts cs)) ≤ b.capacity +
      b.ratePerMs * (t - t₀) + lastBytes (startedBy t (b.starts cs)) := by
  induction cs generalizing b free granted with
  | nil => exact absurd rfl hSome
  | cons c cs ih =>
    obtain ⟨hFree, hRest⟩ := hPatient
    obtain ⟨hOk, hCap, hRate, -⟩ := h.spend c.nowMs c.bytes
    have hPaidC := hPaid c rfl
    set b' := (b.spend c.nowMs c.bytes).2 with hb'
    set at' := c.nowMs + (b.spend c.nowMs c.bytes).1 with hAt
    have hStarts : b.starts (c :: cs) = ⟨at', c.bytes⟩ :: b'.starts cs := rfl
    rw [hStarts] at hSome ⊢
    -- Whoever has started, the first one has.
    have hFirst : at' ≤ t := by
      by_contra hLate
      rw [startedBy_cons_of_lt hLate] at hSome
      obtain ⟨s, hs⟩ := List.exists_mem_of_ne_nil _ hSome
      obtain ⟨hMem, hBy⟩ := List.mem_filter.mp hs
      have hStart : s.atMs ≤ t := by simpa using hBy
      exact hLate ((hRest.le_starts s hMem).trans hStart)
    have hCast : (at' : ℚ) ≤ t := by exact_mod_cast hFirst
    have hTime : b.ratePerMs * ((at' : ℚ) - t₀) ≤ b.ratePerMs * (t - t₀) :=
      mul_le_mul_of_nonneg_left (by linarith) h.rate.le
    -- All before the last call is paid for when that one may start.
    have hSpent : granted + c.bytes + b'.tokens ≤ b.capacity + b.ratePerMs * ((at' : ℚ) - t₀) :=
      hPaidC.spend h
    have hNonneg := hOk.nonneg
    have hBytes : (0 : ℚ) ≤ c.bytes := Nat.cast_nonneg _
    rw [startedBy_cons_of_le hFirst, totalBytes_cons]
    push_cast
    by_cases hMore : startedBy t (b'.starts cs) = []
    · rw [hMore]
      show granted + (c.bytes + (0 : Nat)) ≤ b.capacity + b.ratePerMs * (t - t₀) + c.bytes
      push_cast
      linarith
    · rw [lastBytes_cons hMore]
      match cs, hMore with
      | [], hMore => exact absurd rfl hMore
      | [d], hMore =>
        -- Two calls: the second is the last.
        have hOnly : startedBy t (b'.starts [d]) = b'.starts [d] := startedBy_singleton hMore
        rw [hOnly]
        show granted + (c.bytes + ((d.bytes + 0 : Nat) : ℚ)) ≤
          b.capacity + b.ratePerMs * (t - t₀) + d.bytes
        push_cast
        linarith
      | d :: e :: cs, hMore =>
        obtain ⟨hCovered, hSpacedRest⟩ := hSpaced
        have hLater : at' ≤ d.nowMs := hRest.1
        have hPaidD : ∀ d' ∈ (d :: e :: cs).head?, b'.Paid t₀ (granted + c.bytes) d' := by
          rintro _ ⟨⟩
          exact hPaidC.next h hCovered hLater
        have hNext := ih hOk hRest hSpacedRest hPaidD hMore
        rw [hCap, hRate] at hNext
        linarith

/-- A caller that sleeps as long as it is told to starts work at the rate of the bucket, as long
as each of its calls that has two more behind it is covered. -/
theorem rate_capped (rate t₀ : Nat) {cs : List Call} (hPatient : (new rate t₀).Patient t₀ cs)
    (hSpaced : (new rate t₀).Spaced cs) : (new rate t₀).Capped t₀ cs := by
  intro t
  have hOk := ok_new rate t₀
  by_cases hNone : startedBy t ((new rate t₀).starts cs) = []
  · -- Nothing has started yet.
    have hTime : 0 ≤ (new rate t₀).ratePerMs * (t - t₀ : Nat) :=
      mul_nonneg hOk.rate.le (Nat.cast_nonneg _)
    have hCap := hOk.nonneg.trans hOk.le
    rw [hNone]
    show ((0 : Nat) : ℚ) ≤ _ + ((0 : Nat) : ℚ)
    push_cast
    linarith
  · have hPaid : ∀ c ∈ cs.head?, (new rate t₀).Paid (t₀ : ℚ) 0 c := by
      intro c hc
      obtain ⟨cs, rfl⟩ := List.head?_eq_some_iff.mp hc
      have hFree : (t₀ : ℚ) ≤ c.nowMs := by exact_mod_cast hPatient.1
      have hTime := mul_nonneg hOk.rate.le (sub_nonneg.mpr hFree)
      have hFull := (hOk.refill c.nowMs).le
      rw [refill_capacity] at hFull
      unfold Paid
      linarith
    have hBound := Paid.capped hOk hPatient hSpaced hPaid hNone
    obtain ⟨s, hs⟩ := List.exists_mem_of_ne_nil _ hNone
    obtain ⟨hMem, hBy⟩ := List.mem_filter.mp hs
    have hLe : t₀ ≤ t := (hPatient.le_starts s hMem).trans (by simpa using hBy)
    rw [Nat.cast_sub hLe]
    linarith

/-- A call waits half a second; the next two come a second after that. -/
theorem rate_capped_rested : (new 1000 0).Capped 0 [⟨0, 1500⟩, ⟨1500, 600⟩, ⟨1500, 600⟩] :=
  rate_capped 1000 0 (by decide +kernel) (by decide +kernel)

/-- What came in during the wait of the first call is given to the second one again: 3001 bytes
in 1001 milliseconds, at a rate of one byte for each and a burst of 1000. -/
theorem wait_spent_twice : ¬ ∀ (rate t₀ : Nat) (cs : List Call), 0 < rate →
    (new rate t₀).Patient t₀ cs → (new rate t₀).Capped t₀ cs := by
  intro hAll
  have hCapped := hAll 1000 0 [⟨0, 2000⟩, ⟨1000, 1000⟩, ⟨1000, 1⟩] (by decide) (by decide +kernel)
    1001
  have hStarts : (new 1000 0).starts [⟨0, 2000⟩, ⟨1000, 1000⟩, ⟨1000, 1⟩] =
      [⟨1000, 2000⟩, ⟨1000, 1000⟩, ⟨1001, 1⟩] := by
    decide +kernel
  rw [hStarts] at hCapped
  revert hCapped
  decide +kernel

end TokenBucket

end Ripindex
