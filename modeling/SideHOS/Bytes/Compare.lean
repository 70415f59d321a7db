import SideHOS.Kernel.Compare
import SideHOS.Serial.Strings

/-!
# Comparing bytes

`memcmp` and `strcmp` answer the lexicographic order of unsigned bytes.  They stop at the first
difference: no byte behind it is read, and `strcmp` reads no byte behind the `NUL` of either string,
wherever the strings are and whether or not they overlap.
-/

namespace SideHOS.Bytes

open Kernel.Copy Kernel.Compare Serial.Strings Machine.Word64 Machine.ByteMemory Sharing
  Sharing.Program

/-- The order of a dictionary. -/
abbrev Before (first second : List UInt8) : Prop := List.Lex (· < ·) first second

/-- The sign of the value tells the order of the lists. -/
structure Compares (value : ℤ) (first second : List UInt8) : Prop where
  before : value < 0 ↔ Before first second
  equal : value = 0 ↔ first = second
  after : 0 < value ↔ Before second first

def bytesAt (memory : Memory) (s : ℕ) : ℕ → List UInt8
  | 0 => []
  | count + 1 => memory s :: bytesAt memory (s + 1) count

/-- The access loads the bytes at one distance from the two addresses, and all bytes before it are
equal. -/
def Reached (memory : Memory) (a b limit : ℕ) (operation : ByteAccess) : Prop :=
  ∃ i < limit, (operation = .load (a + i) ∨ operation = .load (b + i)) ∧
    ∀ j < i, memory (a + j) = memory (b + j)

section Order

variable {value : ℤ} {first second : List UInt8} {byte other : UInt8}

theorem not_before_self : ¬ Before first first := by
  induction first with
  | nil => exact List.not_lex_nil
  | cons byte first ih =>
    rw [Before, List.cons_lex_cons_iff]
    rintro (hlt | ⟨-, hrest⟩)
    · exact UInt8.lt_irrefl byte hlt
    · exact ih hrest

theorem compares_self : Compares 0 first first where
  before := ⟨fun h ↦ absurd h (lt_irrefl 0), fun h ↦ absurd h not_before_self⟩
  equal := ⟨fun _ ↦ rfl, fun _ ↦ rfl⟩
  after := ⟨fun h ↦ absurd h (lt_irrefl 0), fun h ↦ absurd h not_before_self⟩

/-- A common first byte does not matter. -/
theorem Compares.cons (h : Compares value first second) :
    Compares value (byte :: first) (byte :: second) := by
  have hskip : ∀ front back : List UInt8, Before (byte :: front) (byte :: back) ↔
      Before front back := by
    intro front back
    rw [Before, List.cons_lex_cons_iff]
    exact ⟨fun hor ↦ hor.elim (fun hlt ↦ absurd hlt (UInt8.lt_irrefl byte)) And.right,
      fun hrest ↦ .inr ⟨rfl, hrest⟩⟩
  constructor
  · rw [hskip, h.before]
  · rw [List.cons_inj_right, h.equal]
  · rw [hskip, h.after]

/-- The first bytes differ. -/
theorem compares_of_ne (hne : byte ≠ other) (hlt : value < 0 ↔ byte < other)
    (hgt : 0 < value ↔ other < byte) : Compares value (byte :: first) (other :: second) where
  before := by
    rw [hlt, Before, List.cons_lex_cons_iff]
    exact ⟨.inl, fun h ↦ h.elim id fun hboth ↦ absurd hboth.1 hne⟩
  equal := by
    constructor
    · rintro rfl
      rcases UInt8.lt_or_lt_of_ne hne with h | h
      · exact absurd (hlt.mpr h) (lt_irrefl 0)
      · exact absurd (hgt.mpr h) (lt_irrefl 0)
    · intro heq
      exact absurd (List.head_eq_of_cons_eq heq) hne
  after := by
    rw [hgt, Before, List.cons_lex_cons_iff]
    exact ⟨.inl, fun h ↦ h.elim id fun hboth ↦ absurd hboth.1.symm hne⟩

/-- Only one list has come to its end. -/
theorem compares_of_nil (hvalue : value < 0) : Compares value [] (byte :: second) where
  before := ⟨fun _ ↦ .nil, fun _ ↦ hvalue⟩
  equal := ⟨fun h ↦ absurd h hvalue.ne, fun h ↦ nomatch h⟩
  after := ⟨fun h ↦ absurd h hvalue.not_gt, fun h ↦ absurd h List.not_lex_nil⟩

theorem Compares.symm (h : Compares value first second) : Compares (-value) second first where
  before := by rw [neg_lt_zero, h.after]
  equal := by rw [neg_eq_zero, h.equal, eq_comm]
  after := by rw [neg_pos, h.before]

end Order

section Compare

variable {memory : Memory} {p1 p2 s1 s2 a b i n turns fuel : ℕ} {first second : List UInt8}

/-- One more byte is equal. -/
theorem equal_succ (hequal : ∀ j < i, memory (a + j) = memory (b + j))
    (hlast : memory (a + i) = memory (b + i)) :
    ∀ j < i + 1, memory (a + j) = memory (b + j) := by
  intro j hj
  rcases Nat.lt_succ_iff_lt_or_eq.mp hj with hlt | rfl
  · exact hequal j hlt
  · exact hlast

/-- One turn of the loop. -/
theorem run_memcmpFrom_succ (hp1 : p1 + i < 2 ^ 64) (hp2 : p2 + i < 2 ^ 64) :
    run execByte (memcmpFrom p1 p2 i (turns + 1)) memory =
      if (memory (p1 + i)).toNat ≠ (memory (p2 + i)).toNat then
        some (if (memory (p1 + i)).toNat < (memory (p2 + i)).toNat then -1 else 1, memory)
      else run execByte (memcmpFrom p1 p2 (i + 1) turns) memory := by
  rw [memcmpFrom, run_perform_bind, run_perform_bind, add_of_lt hp1, add_of_lt hp2, run_ite]
  rfl

theorem accesses_memcmpFrom_succ (hp1 : p1 + i < 2 ^ 64) (hp2 : p2 + i < 2 ^ 64) :
    accesses execByte (memcmpFrom p1 p2 i (turns + 1)) memory =
      .load (p1 + i) :: .load (p2 + i) ::
        if (memory (p1 + i)).toNat ≠ (memory (p2 + i)).toNat then
          [.load (p1 + i), .load (p2 + i)]
        else accesses execByte (memcmpFrom p1 p2 (i + 1) turns) memory := by
  rw [memcmpFrom, accesses_perform_bind, accesses_perform_bind, add_of_lt hp1, add_of_lt hp2,
    accesses_ite]
  rfl

/-- What the loop answers, from any byte on. -/
theorem run_memcmpFrom (hp1 : p1 + (i + turns) ≤ 2 ^ 64) (hp2 : p2 + (i + turns) ≤ 2 ^ 64) :
    ∃ value, run execByte (memcmpFrom p1 p2 i turns) memory = some (value, memory) ∧
      Compares value (bytesAt memory (p1 + i) turns) (bytesAt memory (p2 + i) turns) := by
  induction turns generalizing i with
  | zero => exact ⟨0, rfl, compares_self⟩
  | succ turns ih =>
    have hfirst : p1 + i < 2 ^ 64 := by omega
    have hsecond : p2 + i < 2 ^ 64 := by omega
    rw [run_memcmpFrom_succ hfirst hsecond]
    split_ifs with heq hlt
    · have hne : memory (p1 + i) ≠ memory (p2 + i) := UInt8.toNat_inj.not.mp heq
      exact ⟨-1, rfl, compares_of_ne hne (iff_of_true (by decide) hlt)
        (iff_of_false (by decide) (UInt8.lt_asymm hlt))⟩
    · have hne : memory (p1 + i) ≠ memory (p2 + i) := UInt8.toNat_inj.not.mp heq
      exact ⟨1, rfl, compares_of_ne hne (iff_of_false (by decide) hlt)
        (iff_of_true (by decide) ((UInt8.lt_or_lt_of_ne hne).resolve_left hlt))⟩
    · obtain ⟨value, hrun, hcompares⟩ := @ih (i + 1) (by omega) (by omega)
      refine ⟨value, hrun, ?_⟩
      rw [bytesAt, bytesAt, UInt8.toNat_inj.mp (not_not.mp heq)]
      exact hcompares.cons

/-- What the loop reads, from any byte on. -/
theorem reached_memcmpFrom (hp1 : p1 + (i + turns) ≤ 2 ^ 64) (hp2 : p2 + (i + turns) ≤ 2 ^ 64)
    (hequal : ∀ j < i, memory (p1 + j) = memory (p2 + j)) :
    ∀ operation ∈ accesses execByte (memcmpFrom p1 p2 i turns) memory,
      Reached memory p1 p2 (i + turns) operation := by
  induction turns generalizing i with
  | zero => simp [memcmpFrom]
  | succ turns ih =>
    have hlength : i + (turns + 1) = i + 1 + turns := by omega
    rw [hlength] at hp1 hp2 ⊢
    have hfirst : Reached memory p1 p2 (i + 1 + turns) (.load (p1 + i)) :=
      ⟨i, by omega, .inl rfl, hequal⟩
    have hsecond : Reached memory p1 p2 (i + 1 + turns) (.load (p2 + i)) :=
      ⟨i, by omega, .inr rfl, hequal⟩
    have hp1i : p1 + i < 2 ^ 64 := by omega
    have hp2i : p2 + i < 2 ^ 64 := by omega
    rw [accesses_memcmpFrom_succ hp1i hp2i, List.forall_mem_cons, List.forall_mem_cons]
    refine ⟨hfirst, hsecond, ?_⟩
    split_ifs with hne
    · rw [List.forall_mem_cons, List.forall_mem_singleton]
      exact ⟨hfirst, hsecond⟩
    · exact ih hp1 hp2 (equal_succ hequal (UInt8.toNat_inj.mp (not_not.mp hne)))

/-- `memcmp` ends and answers the order of the two ranges.  It reads up to the first difference. -/
theorem memcmp_compares (hs1 : s1 + n ≤ 2 ^ 64) (hs2 : s2 + n ≤ 2 ^ 64) :
    (∃ value, run execByte (memcmp s1 s2 n) memory = some (value, memory) ∧
        Compares value (bytesAt memory s1 n) (bytesAt memory s2 n)) ∧
      ∀ operation ∈ accesses execByte (memcmp s1 s2 n) memory,
        Reached memory s1 s2 n operation := by
  have hrun := @run_memcmpFrom memory s1 s2 0 n
  have hreached := @reached_memcmpFrom memory s1 s2 0 n
  rw [Nat.zero_add] at hrun hreached
  exact ⟨hrun hs1 hs2, hreached hs1 hs2 fun j hj ↦ absurd hj (Nat.not_lt_zero j)⟩

/-- One turn of the loop, and what is answered if it is the last. -/
theorem run_strcmp_succ :
    run execByte (strcmp (fuel + 1) a b) memory =
      if (memory a).toNat ≠ 0 then
        if (memory a).toNat = (memory b).toNat then
          run execByte (strcmp fuel (add a 1) (add b 1)) memory
        else some (((memory a).toNat : ℤ) - (memory b).toNat, memory)
      else some (((memory a).toNat : ℤ) - (memory b).toNat, memory) := by
  rw [strcmp, run_perform_bind, run_ite, run_perform_bind, run_perform_bind, run_ite]
  rfl

theorem accesses_strcmp_succ :
    accesses execByte (strcmp (fuel + 1) a b) memory = .load a ::
      if (memory a).toNat ≠ 0 then .load a :: .load b ::
        if (memory a).toNat = (memory b).toNat then
          accesses execByte (strcmp fuel (add a 1) (add b 1)) memory
        else [.load a, .load b]
      else [.load a, .load b] := by
  rw [strcmp, accesses_perform_bind, accesses_ite, accesses_perform_bind, accesses_perform_bind,
    accesses_ite]
  rfl

/-- A string without its first byte. -/
theorem cString_tail {byte : UInt8} (h : CString memory a (byte :: first)) :
    memory a = byte ∧ byte ≠ 0 ∧ a + 1 < 2 ^ 64 ∧ CString memory (a + 1) first := by
  have hwithin := h.within
  rw [List.length_cons] at hwithin
  have hbyte := h.byte_eq 0 (Nat.succ_pos _)
  have hnot := h.ne_zero
  rw [List.mem_cons, not_or] at hnot
  refine ⟨hbyte, Ne.symm hnot.1, by omega, by omega, ?_, hnot.2, ?_⟩
  · intro i hi
    rw [Nat.add_assoc, Nat.add_comm 1 i]
    exact h.byte_eq (i + 1) (Nat.succ_lt_succ hi)
  · rw [Nat.add_assoc, Nat.add_comm 1]
    exact h.terminated

/-- The first byte of a string, which is its `NUL` if it is empty. -/
theorem cString_head (h : CString memory a first) : memory a = first.headD 0 := by
  cases first with
  | nil => exact h.terminated
  | cons byte first => exact (cString_tail h).1

/-- The difference of the first bytes tells the order, if they differ. -/
theorem compares_head {byte : UInt8} (hb : CString memory b second) (hne : byte ≠ memory b)
    (hbyte : byte ≠ 0) :
    Compares ((byte.toNat : ℤ) - (memory b).toNat) (byte :: first) second := by
  have hsign : ∀ other : UInt8, ((byte.toNat : ℤ) - other.toNat < 0 ↔ byte < other) ∧
      (0 < (byte.toNat : ℤ) - other.toNat ↔ other < byte) := by
    intro other
    rw [UInt8.lt_iff_toNat_lt, UInt8.lt_iff_toNat_lt]
    omega
  rw [cString_head hb] at hne ⊢
  cases second with
  | nil =>
    have hpos : 0 < byte := UInt8.pos_iff_ne_zero.mpr hbyte
    have hless : Compares (-((byte.toNat : ℤ) - (0 : UInt8).toNat)) [] (byte :: first) :=
      compares_of_nil (neg_lt_zero.mpr ((hsign 0).2.mpr hpos))
    have hmore := hless.symm
    rwa [neg_neg] at hmore
  | cons other second => exact compares_of_ne hne (hsign other).1 (hsign other).2

/-- `strcmp` answers the order of two strings. -/
theorem run_strcmp (ha : CString memory a first) (hb : CString memory b second)
    (hfuel : first.length < fuel) :
    ∃ value, run execByte (strcmp fuel a b) memory = some (value, memory) ∧
      Compares value first second := by
  induction first generalizing a b second fuel with
  | nil =>
    cases fuel with
    | zero => exact absurd hfuel (Nat.not_lt_zero _)
    | succ fuel =>
      have hzero : (memory a).toNat = 0 := congrArg UInt8.toNat ha.terminated
      rw [run_strcmp_succ, if_neg (not_not.mpr hzero), hzero, cString_head hb]
      refine ⟨_, rfl, ?_⟩
      cases second with
      | nil => exact compares_self
      | cons other second =>
        apply compares_of_nil
        have hpos : 0 < other := UInt8.pos_iff_ne_zero.mpr (cString_tail hb).2.1
        rw [UInt8.lt_iff_toNat_lt] at hpos
        exact sub_neg.mpr (Nat.cast_lt.mpr hpos)
  | cons byte first ih =>
    cases fuel with
    | zero => exact absurd hfuel (Nat.not_lt_zero _)
    | succ fuel =>
      obtain ⟨hbyte, hne, hlt, htail⟩ := cString_tail ha
      have hnonzero : (memory a).toNat ≠ 0 := by
        rw [hbyte]
        exact (UInt8.toNat_inj (b := 0)).not.mpr hne
      rw [run_strcmp_succ, if_pos hnonzero]
      split_ifs with hequal
      · have hheads := UInt8.toNat_inj.mp hequal
        rw [hbyte, cString_head hb] at hheads
        cases second with
        | nil => exact absurd hheads hne
        | cons other second =>
          obtain ⟨-, -, hltb, htailb⟩ := cString_tail hb
          obtain ⟨value, hrun, hcompares⟩ := ih htail htailb (Nat.lt_of_succ_lt_succ hfuel)
          rw [add_of_lt hlt, add_of_lt hltb]
          cases hheads
          exact ⟨value, hrun, hcompares.cons⟩
      · rw [UInt8.toNat_inj, hbyte] at hequal
        rw [hbyte]
        exact ⟨_, rfl, compares_head hb hequal hne⟩

/-- What is reached behind an equal byte. -/
theorem Reached.shift {limit : ℕ} {operation : ByteAccess}
    (h : Reached memory (a + 1) (b + 1) limit operation) (hequal : memory a = memory b) :
    Reached memory a b (limit + 1) operation := by
  obtain ⟨i, hi, hoperation, hbefore⟩ := h
  refine ⟨i + 1, Nat.succ_lt_succ hi, ?_, ?_⟩
  · rwa [Nat.add_comm i 1, ← Nat.add_assoc, ← Nat.add_assoc]
  · intro j hj
    cases j with
    | zero => exact hequal
    | succ j =>
      rw [Nat.add_comm j 1, ← Nat.add_assoc, ← Nat.add_assoc]
      exact hbefore j (Nat.lt_of_succ_lt_succ hj)

theorem reached_first (limit : ℕ) : Reached memory a b (limit + 1) (.load a) ∧
    Reached memory a b (limit + 1) (.load b) :=
  ⟨⟨0, Nat.succ_pos limit, .inl rfl, fun j hj ↦ absurd hj (Nat.not_lt_zero j)⟩,
    ⟨0, Nat.succ_pos limit, .inr rfl, fun j hj ↦ absurd hj (Nat.not_lt_zero j)⟩⟩

theorem reached_difference (limit : ℕ) :
    ∀ operation ∈ [ByteAccess.load a, .load b], Reached memory a b (limit + 1) operation := by
  rw [List.forall_mem_cons, List.forall_mem_singleton]
  exact reached_first limit

/-- What `strcmp` reads. -/
theorem reached_strcmp (ha : CString memory a first) (hb : CString memory b second) :
    ∀ operation ∈ accesses execByte (strcmp fuel a b) memory,
      Reached memory a b (min first.length second.length + 1) operation := by
  induction first generalizing a b second fuel with
  | nil =>
    cases fuel with
    | zero => exact fun _ h ↦ absurd h List.not_mem_nil
    | succ fuel =>
      have hzero : (memory a).toNat = 0 := congrArg UInt8.toNat ha.terminated
      rw [accesses_strcmp_succ, if_neg (not_not.mpr hzero), List.forall_mem_cons]
      exact ⟨(reached_first _).1, reached_difference _⟩
  | cons byte first ih =>
    cases fuel with
    | zero => exact fun _ h ↦ absurd h List.not_mem_nil
    | succ fuel =>
      obtain ⟨hbyte, hne, hlt, htail⟩ := cString_tail ha
      have hnonzero : (memory a).toNat ≠ 0 := by
        rw [hbyte]
        exact (UInt8.toNat_inj (b := 0)).not.mpr hne
      rw [accesses_strcmp_succ, if_pos hnonzero, List.forall_mem_cons, List.forall_mem_cons,
        List.forall_mem_cons]
      refine ⟨(reached_first _).1, (reached_first _).1, (reached_first _).2, ?_⟩
      split_ifs with hequal
      · have hheads := UInt8.toNat_inj.mp hequal
        cases second with
        | nil =>
          rw [hbyte, cString_head hb] at hheads
          exact absurd hheads hne
        | cons other second =>
          obtain ⟨-, -, hltb, htailb⟩ := cString_tail hb
          rw [add_of_lt hlt, add_of_lt hltb, List.length_cons, List.length_cons,
            Nat.add_min_add_right]
          exact fun operation hmem ↦ (ih htail htailb operation hmem).shift hheads
      · exact reached_difference _

/-- `strcmp` ends and answers the order of the two strings.  It reads neither behind the first
difference nor behind the `NUL` of either. -/
theorem strcmp_compares (ha : CString memory a first) (hb : CString memory b second) :
    ∃ fuel,
      (∃ value, run execByte (strcmp fuel a b) memory = some (value, memory) ∧
        Compares value first second) ∧
      ∀ operation ∈ accesses execByte (strcmp fuel a b) memory,
        Reached memory a b (min first.length second.length + 1) operation :=
  ⟨first.length + 1, run_strcmp ha hb (Nat.lt_succ_self _), reached_strcmp ha hb⟩

/-- `memcmp` of two overlapping ranges. -/
theorem memcmp_compares_overlap :
    (∃ value, run execByte (memcmp 0 1 3) (fun x ↦ x.toUInt8) = some (value, fun x ↦ x.toUInt8) ∧
        Compares value (bytesAt (fun x ↦ x.toUInt8) 0 3) (bytesAt (fun x ↦ x.toUInt8) 1 3)) ∧
      ∀ operation ∈ accesses execByte (memcmp 0 1 3) (fun x ↦ x.toUInt8),
        Reached (fun x ↦ x.toUInt8) 0 1 3 operation :=
  memcmp_compares (by norm_num) (by norm_num)

/-- A string and its own end, at the end of the address space. -/
theorem strcmp_compares_end :
    ∃ fuel,
      (∃ value, run execByte (strcmp fuel (2 ^ 64 - 3) (2 ^ 64 - 2))
          (fun x ↦ if x < 2 ^ 64 - 1 then 97 else 0) =
            some (value, fun x ↦ if x < 2 ^ 64 - 1 then 97 else 0) ∧
        Compares value [97, 97] [97]) ∧
      ∀ operation ∈ accesses execByte (strcmp fuel (2 ^ 64 - 3) (2 ^ 64 - 2))
          (fun x ↦ if x < 2 ^ 64 - 1 then 97 else 0),
        Reached (fun x ↦ if x < 2 ^ 64 - 1 then 97 else 0) (2 ^ 64 - 3) (2 ^ 64 - 2)
          (min [97, (97 : UInt8)].length [(97 : UInt8)].length + 1) operation := by
  apply strcmp_compares
  · exact ⟨by decide, by decide, by decide, rfl⟩
  · exact ⟨by decide, by decide, by decide, rfl⟩

end Compare

end SideHOS.Bytes
