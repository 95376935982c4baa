/-! # Sets of natural numbers

A finite set of natural numbers as the bits of one number, so that two sets with the same members
are equal.
-/

namespace CornScript

structure BitSet where
  bits : Nat
  deriving DecidableEq, Repr

namespace BitSet

def empty : BitSet := ⟨0⟩

def mem (s : BitSet) (i : Nat) : Bool :=
  s.bits.testBit i

def insert (s : BitSet) (i : Nat) : BitSet :=
  ⟨s.bits ||| 1 <<< i⟩

/-- The number of numbers below `n` that are not in the set. -/
def absent (s : BitSet) : Nat → Nat
  | 0 => 0
  | n + 1 => s.absent n + if s.mem n then 0 else 1

@[simp] theorem mem_empty (i : Nat) : empty.mem i = false := by
  simp [empty, mem]

theorem mem_insert (s : BitSet) (i j : Nat) : (s.insert i).mem j = (s.mem j || decide (i = j)) := by
  simp [insert, mem, Nat.testBit_or, Nat.one_shiftLeft, Nat.testBit_two_pow]

theorem ext_mem {s t : BitSet} (h : ∀ i, s.mem i = t.mem i) : s = t := by
  obtain ⟨a⟩ := s
  obtain ⟨b⟩ := t
  exact congrArg BitSet.mk (Nat.eq_of_testBit_eq h)

theorem absent_insert_le (s : BitSet) (i n : Nat) : (s.insert i).absent n ≤ s.absent n := by
  induction n with
  | zero => exact Nat.le_refl _
  | succ n ih =>
    have h := mem_insert s i n
    unfold absent
    cases hs : s.mem n
    · split <;> simp <;> omega
    · rw [h, hs]
      simpa using ih

theorem absent_insert_lt {s : BitSet} {i n : Nat} (hi : i < n) (h : s.mem i = false) :
    (s.insert i).absent n < s.absent n := by
  induction n with
  | zero => omega
  | succ n ih =>
    have hm := mem_insert s i n
    unfold absent
    by_cases hn : i = n
    · have hle := absent_insert_le s i n
      subst hn
      simp [hm, h]
      omega
    · have hlt := ih (by omega)
      simp [hn] at hm
      rw [hm]
      omega

end BitSet

end CornScript
