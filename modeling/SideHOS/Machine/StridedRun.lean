import Mathlib.Tactic
import Mathlib.Algebra.Order.BigOperators.Group.Multiset

/-!
# Strided runs

`strided step base count` is the multiset of the `count` numbers `base`, `base + step`, ... .  A
run splits at any point, so taking numbers off its end or adding one next to either end is
multiset arithmetic.
-/

namespace SideHOS.Machine

/-- The numbers `base + step * k` for `k < count`. -/
def strided (step base count : ℕ) : Multiset ℕ :=
  (Multiset.range count).map fun k ↦ base + step * k

variable {step base count : ℕ}

@[simp]
theorem strided_zero : strided step base 0 = 0 := rfl

@[simp]
theorem strided_one : strided step base 1 = {base} := by
  simp [strided]

@[simp]
theorem card_strided : (strided step base count).card = count := by
  simp [strided]

theorem mem_strided {x : ℕ} : x ∈ strided step base count ↔ ∃ k < count, base + step * k = x := by
  simp [strided]

/-- A run that is not empty starts at its least element. -/
theorem strided_inj {other : ℕ} (hcount : 0 < count)
    (h : strided step base count = strided step other count) : base = other := by
  have hbase : base ∈ strided step other count := h ▸ mem_strided.mpr ⟨0, hcount, by simp⟩
  have hother : other ∈ strided step base count := h.symm ▸ mem_strided.mpr ⟨0, hcount, by simp⟩
  obtain ⟨first, -, hfirst⟩ := mem_strided.mp hbase
  obtain ⟨second, -, hsecond⟩ := mem_strided.mp hother
  omega

/-- A run of `first + second` numbers is a run of `first` followed by a run of `second`. -/
theorem strided_add (first second : ℕ) :
    strided step base (first + second) =
      strided step base first + strided step (base + step * first) second := by
  induction second with
  | zero => simp
  | succ second ih =>
    have hlast (start n : ℕ) :
        strided step start (n + 1) = (start + step * n) ::ₘ strided step start n := by
      simp [strided, Multiset.range_succ]
    rw [← add_assoc, hlast, ih, hlast, Multiset.add_cons, mul_add, add_assoc]

/-- One more number at the end. -/
theorem strided_succ :
    strided step base (count + 1) = strided step base count + {base + step * count} := by
  rw [strided_add, strided_one]

/-- One more number at the start. -/
theorem strided_succ_start :
    strided step base (count + 1) = {base} + strided step (base + step) count := by
  rw [add_comm count 1, strided_add, strided_one, mul_one]

/-- The last `taken` numbers of a run, taken off. -/
theorem strided_sub (step base : ℕ) {count taken : ℕ} (h : taken ≤ count) :
    strided step base (count - taken) + strided step (base + step * (count - taken)) taken =
      strided step base count := by
  rw [← strided_add, Nat.sub_add_cancel h]

theorem nodup_strided (hstep : 0 < step) : (strided step base count).Nodup := by
  refine (Multiset.nodup_range count).map fun first second h ↦ ?_
  have hmul : step * first = step * second := Nat.add_left_cancel h
  exact Nat.eq_of_mul_eq_mul_left hstep hmul

end SideHOS.Machine
