import Mathlib.Algebra.Order.Ring.Nat
import Mathlib.Data.List.Basic
import Mathlib.Tactic.Common

/-!
# LEB128

Numbers as strings of bytes with seven bits each, the lowest first. Every byte but the last of
a string has its high bit set; a string need not be the shortest for its number.

## Results

* `Leb.cons_of_lt`, `Leb.cons_of_not_lt` — the first byte says whether a string goes on.
-/

/-- The bytes are one terminated string, of the value `x`. -/
inductive Leb : List UInt8 → Nat → Prop
  | last {b : UInt8} (h : b < 128) : Leb [b] b.toNat
  | more {b : UInt8} {bs : List UInt8} {x : Nat} (h : ¬ b < 128) (hRest : Leb bs x) :
      Leb (b :: bs) (b.toNat % 128 + 128 * x)

namespace Leb

variable {b : UInt8} {bs : List UInt8} {x y : Nat}

theorem length_pos (h : Leb bs x) : 0 < bs.length := by
  rcases h with _ | _ <;> exact Nat.succ_pos _

/-- A string that starts with a low byte is that byte. -/
theorem cons_of_lt (hb : b < 128) : Leb (b :: bs) x ↔ bs = [] ∧ x = b.toNat := by
  constructor
  · intro h
    rcases h with _ | ⟨hNot, -⟩
    · exact ⟨rfl, rfl⟩
    · exact absurd hb hNot
  · rintro ⟨rfl, rfl⟩
    exact .last hb

/-- A string that starts with a high byte goes on. -/
theorem cons_of_not_lt (hb : ¬ b < 128) :
    Leb (b :: bs) x ↔ ∃ y, Leb bs y ∧ x = b.toNat % 128 + 128 * y := by
  constructor
  · intro h
    rcases h with hLt | ⟨-, hRest⟩
    · exact absurd hLt hb
    · exact ⟨_, hRest, rfl⟩
  · rintro ⟨y, hRest, rfl⟩
    exact .more hb hRest

end Leb
