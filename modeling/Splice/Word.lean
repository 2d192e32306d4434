import Splice.Error

/-!
# Words

Groups are counted in words of 32 bits. Sums are checked: one that does not fit
a word ends the work with an overflow, and no other number takes its place.
-/

namespace Splice

abbrev Word := UInt32

namespace Word

variable {m k : Word} {n : Nat} {e : Error}

/-- The word that is `n` further on. -/
def add (m : Word) (n : Nat) : Except Error Word :=
  if m.toNat + n < wordLimit then .ok (UInt32.ofNat (m.toNat + n)) else .error .overflow

theorem toNat_lt (m : Word) : m.toNat < wordLimit := UInt32.toNat_lt m

theorem exists_toNat (h : n < wordLimit) : ∃ m : Word, m.toNat = n :=
  ⟨UInt32.ofNat n, UInt32.toNat_ofNat_of_lt h⟩

theorem add_eq_ok : add m n = .ok k ↔ k.toNat = m.toNat + n := by
  unfold add
  split
  · rename_i h
    have hsum : (UInt32.ofNat (m.toNat + n)).toNat = m.toNat + n := UInt32.toNat_ofNat_of_lt h
    rw [Except.ok.injEq, ← UInt32.toNat_inj, hsum, eq_comm]
  · rename_i h
    have hk := toNat_lt k
    constructor
    · nofun
    · intro hsum
      omega

theorem add_eq_error : add m n = .error e ↔ wordLimit ≤ m.toNat + n ∧ e = .overflow := by
  unfold add
  split
  · rename_i h
    constructor
    · nofun
    · intro hsum
      omega
  · rename_i h
    rw [Except.error.injEq, eq_comm]
    exact (and_iff_right (Nat.not_lt.mp h)).symm

end Word

end Splice
