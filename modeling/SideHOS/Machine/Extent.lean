import SideHOS.Machine.StridedRun

/-!
# Extents of addresses

An extent is a start and a length.  Extents that are `Apart` have no address in common, and an
extent `Within` another inherits what the larger one is apart from.  Two aligned runs of cells of
one size that have no cell in common are apart (`apart_of_disjoint`).
-/

namespace SideHOS.Machine

/-- The addresses from `start` on, `length` many. -/
@[ext]
structure Extent where
  start : ℕ
  length : ℕ
  deriving DecidableEq

namespace Extent

def stop (extent : Extent) : ℕ := extent.start + extent.length

/-- One extent ends before the other starts. -/
def Apart (first second : Extent) : Prop :=
  first.stop ≤ second.start ∨ second.stop ≤ first.start

def Within (inner outer : Extent) : Prop :=
  outer.start ≤ inner.start ∧ inner.stop ≤ outer.stop

def Holds (extent : Extent) (address : ℕ) : Prop :=
  extent.start ≤ address ∧ address < extent.stop

variable {first second third inner outer : Extent} {address : ℕ}

theorem Apart.symm (h : Apart first second) : Apart second first := Or.symm h

theorem Apart.mono_left (h : Apart outer second) (hwithin : Within inner outer) :
    Apart inner second := by
  rcases h with h | h
  · exact Or.inl (hwithin.2.trans h)
  · exact Or.inr (h.trans hwithin.1)

theorem Apart.mono_right (h : Apart first outer) (hwithin : Within inner outer) :
    Apart first inner := (h.symm.mono_left hwithin).symm

theorem Within.trans (hfirst : Within first second) (hsecond : Within second third) :
    Within first third :=
  ⟨hsecond.1.trans hfirst.1, hfirst.2.trans hsecond.2⟩

theorem Within.holds (hwithin : Within inner outer) (h : inner.Holds address) :
    outer.Holds address :=
  ⟨hwithin.1.trans h.1, h.2.trans_le hwithin.2⟩

/-- Apart extents share no address. -/
theorem Apart.not_holds (h : Apart first second) (hfirst : first.Holds address) :
    ¬ second.Holds address := by
  rintro ⟨hlow, hhigh⟩
  rcases h with h | h
  · exact absurd (hfirst.2.trans_le h) (not_lt.mpr hlow)
  · exact absurd (hhigh.trans_le h) (not_lt.mpr hfirst.1)

/-- Aligned runs of cells without a common cell are apart. -/
theorem apart_of_disjoint {step low high lowCount highCount : ℕ} (hlow : low % step = 0)
    (hhigh : high % step = 0) (hlowCount : 0 < lowCount) (hhighCount : 0 < highCount)
    (h : Disjoint (strided step low lowCount) (strided step high highCount)) :
    Apart ⟨low, step * lowCount⟩ ⟨high, step * highCount⟩ := by
  by_contra hoverlap
  simp only [Apart, stop, not_or, not_le] at hoverlap
  obtain ⟨i, rfl⟩ := Nat.dvd_of_mod_eq_zero hlow
  obtain ⟨j, rfl⟩ := Nat.dvd_of_mod_eq_zero hhigh
  simp only [← mul_add] at hoverlap
  have hforward : j < i + lowCount := lt_of_mul_lt_mul_left hoverlap.1 (Nat.zero_le step)
  have hbackward : i < j + highCount := lt_of_mul_lt_mul_left hoverlap.2 (Nat.zero_le step)
  have hcommon (k : ℕ) (hik : i ≤ k) (hjk : j ≤ k) (hi : k < i + lowCount)
      (hj : k < j + highCount) : False := by
    have hfirst : step * k ∈ strided step (step * i) lowCount :=
      mem_strided.mpr ⟨k - i, by omega, by rw [← mul_add, Nat.add_sub_cancel' hik]⟩
    have hsecond : step * k ∈ strided step (step * j) highCount :=
      mem_strided.mpr ⟨k - j, by omega, by rw [← mul_add, Nat.add_sub_cancel' hjk]⟩
    exact Multiset.disjoint_left.mp h hfirst hsecond
  rcases Nat.le_total i j with hle | hle
  · exact hcommon j hle le_rfl hforward (by omega)
  · exact hcommon i le_rfl hle (by omega) hbackward

end Extent

end SideHOS.Machine
