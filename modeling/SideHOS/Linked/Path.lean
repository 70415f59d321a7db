import Mathlib.Tactic

/-!
# Null-terminated singly linked lists

A linked structure is a successor function `next` on the cells and a distinguished null cell.
`Path null next start cells stop` says that following `next` from `start` visits exactly `cells`,
none of them null, and then stands at `stop`; a null-terminated list is a path to null.  The
rules below split, join, extend and redirect paths, and show that a null-terminated list is
determined by its head and visits no cell twice.
-/

namespace SideHOS.Linked

variable {Cell : Type*} {null : Cell} {next other : Cell → Cell}

/-- Following `next` from the first cell visits exactly the listed non-null cells and then stands
at the last cell. -/
def Path (null : Cell) (next : Cell → Cell) : Cell → List Cell → Cell → Prop
  | start, [], stop => start = stop
  | start, cell :: cells, stop => start = cell ∧ cell ≠ null ∧ Path null next (next cell) cells stop

/-- A null-terminated list with the given head and cells. -/
abbrev Chain (null : Cell) (next : Cell → Cell) (head : Cell) (cells : List Cell) : Prop :=
  Path null next head cells null

@[simp]
theorem path_nil {start stop : Cell} : Path null next start [] stop ↔ start = stop := Iff.rfl

@[simp]
theorem path_cons {start stop cell : Cell} {cells : List Cell} :
    Path null next start (cell :: cells) stop ↔
      start = cell ∧ cell ≠ null ∧ Path null next (next cell) cells stop := Iff.rfl

theorem path_append {start stop : Cell} {front back : List Cell} :
    Path null next start (front ++ back) stop ↔
      ∃ middle, Path null next start front middle ∧ Path null next middle back stop := by
  induction front generalizing start with
  | nil => simp
  | cons cell front ih =>
    simp only [List.cons_append, path_cons, ih]
    constructor
    · rintro ⟨hstart, hcell, middle, hfront, hback⟩
      exact ⟨middle, ⟨hstart, hcell, hfront⟩, hback⟩
    · rintro ⟨middle, ⟨hstart, hcell, hfront⟩, hback⟩
      exact ⟨hstart, hcell, middle, hfront, hback⟩

/-- A path ending in `cell` and leaving it. -/
theorem path_concat {start stop cell : Cell} {cells : List Cell} :
    Path null next start (cells ++ [cell]) stop ↔
      Path null next start cells cell ∧ cell ≠ null ∧ next cell = stop := by
  rw [path_append]
  constructor
  · rintro ⟨middle, hcells, rfl, hcell, hstop⟩
    exact ⟨hcells, hcell, hstop⟩
  · rintro ⟨hcells, hcell, hstop⟩
    exact ⟨cell, hcells, rfl, hcell, hstop⟩

/-- A path only depends on the successors of the cells it visits. -/
theorem Path.congr {start stop : Cell} {cells : List Cell}
    (h : Path null next start cells stop) (hagree : ∀ cell ∈ cells, other cell = next cell) :
    Path null other start cells stop := by
  induction cells generalizing start with
  | nil => exact h
  | cons cell cells ih =>
    obtain ⟨hstart, hcell, hrest⟩ := h
    refine ⟨hstart, hcell, ?_⟩
    rw [hagree cell List.mem_cons_self]
    exact ih hrest fun later hlater ↦ hagree later (List.mem_cons_of_mem _ hlater)

/-- A path determines the successors of the cells it visits. -/
theorem Path.next_eq {start stop : Cell} {cells : List Cell}
    (h : Path null next start cells stop) (hother : Path null other start cells stop) :
    ∀ cell ∈ cells, other cell = next cell := by
  induction cells generalizing start with
  | nil => simp
  | cons first cells ih =>
    obtain ⟨-, -, hrest⟩ := h
    obtain ⟨-, -, hrest'⟩ := hother
    have hfirst : other first = next first := by
      cases cells with
      | nil => exact hrest'.trans hrest.symm
      | cons second cells => exact hrest'.1.trans hrest.1.symm
    rw [hfirst] at hrest'
    exact List.forall_mem_cons.mpr ⟨hfirst, ih hrest hrest'⟩

theorem Path.ne_null {start stop cell : Cell} {cells : List Cell}
    (h : Path null next start cells stop) (hcell : cell ∈ cells) : cell ≠ null := by
  induction cells generalizing start with
  | nil => cases hcell
  | cons first cells ih =>
    obtain ⟨-, hfirst, hrest⟩ := h
    rcases List.mem_cons.mp hcell with rfl | hlater
    · exact hfirst
    · exact ih hrest hlater

/-- Redirecting the last cell of a path moves its end. -/
theorem Path.redirect {start stop moved cell : Cell} {cells : List Cell}
    (h : Path null next start (cells ++ [cell]) stop)
    (hagree : ∀ earlier ∈ cells, other earlier = next earlier) (hmoved : other cell = moved) :
    Path null other start (cells ++ [cell]) moved := by
  obtain ⟨hcells, hcell, -⟩ := path_concat.mp h
  exact path_concat.mpr ⟨hcells.congr hagree, hcell, hmoved⟩

theorem chain_null {cells : List Cell} : Chain null next null cells ↔ cells = [] := by
  cases cells with
  | nil => simp
  | cons cell cells =>
    constructor
    · rintro ⟨hcell, hne, -⟩
      exact absurd hcell.symm hne
    · intro h
      cases h

/-- The head determines the cells. -/
theorem Chain.unique {head : Cell} {first second : List Cell}
    (hfirst : Chain null next head first) (hsecond : Chain null next head second) :
    first = second := by
  induction first generalizing head second with
  | nil =>
    obtain rfl : head = null := hfirst
    exact (chain_null.mp hsecond).symm
  | cons cell first ih =>
    obtain ⟨rfl, hcell, hrest⟩ := hfirst
    cases second with
    | nil => exact absurd hsecond hcell
    | cons other second =>
      obtain ⟨rfl, -, hrest'⟩ := hsecond
      rw [ih hrest hrest']

/-- The list seen from one of its cells. -/
theorem Chain.suffix {head cell : Cell} {front back : List Cell}
    (h : Chain null next head (front ++ cell :: back)) : Chain null next cell (cell :: back) := by
  obtain ⟨middle, -, hback⟩ := path_append.mp h
  obtain ⟨rfl, hcell, hrest⟩ := hback
  exact ⟨rfl, hcell, hrest⟩

/-- Every cell that a path reaches is on the list. -/
theorem Chain.mem_of_path {head cell : Cell} {front cells : List Cell}
    (h : Chain null next head cells) (hpath : Path null next head front cell) (hne : cell ≠ null) :
    cell ∈ cells := by
  induction front generalizing head cells with
  | nil =>
    obtain rfl : head = cell := hpath
    cases cells with
    | nil => exact absurd h hne
    | cons first cells => exact List.mem_cons.mpr (Or.inl h.1)
  | cons first front ih =>
    obtain ⟨rfl, hfirst, hrest⟩ := hpath
    cases cells with
    | nil => exact absurd h hfirst
    | cons other cells =>
      obtain ⟨rfl, -, hcells⟩ := h
      exact List.mem_cons_of_mem _ (ih hcells hrest)

/-- A list that is not empty starts at one of its cells. -/
theorem Chain.head_mem {head : Cell} {cells : List Cell} (h : Chain null next head cells) :
    head = null ∨ head ∈ cells := by
  cases cells with
  | nil => exact Or.inl h
  | cons cell cells => exact Or.inr (List.mem_cons.mpr (Or.inl h.1))

/-- Links of a list stay in the list. -/
theorem Chain.next_mem {head cell : Cell} {cells : List Cell} (h : Chain null next head cells)
    (hcell : cell ∈ cells) : next cell = null ∨ next cell ∈ cells := by
  obtain ⟨front, back, rfl⟩ := List.append_of_mem hcell
  have hlater : Chain null next (next cell) back := (Chain.suffix h).2.2
  apply (Chain.head_mem hlater).imp_right
  intro hmem
  exact List.mem_append_right _ (List.mem_cons_of_mem _ hmem)

/-- A null-terminated list has no cycle. -/
theorem Chain.nodup {head : Cell} {cells : List Cell} (h : Chain null next head cells) :
    cells.Nodup := by
  induction cells generalizing head with
  | nil => exact List.nodup_nil
  | cons cell cells ih =>
    refine List.nodup_cons.mpr ⟨fun hmem ↦ ?_, ih h.2.2⟩
    obtain ⟨front, back, rfl⟩ := List.append_of_mem hmem
    have hinner : Chain null next cell (cell :: back) := Chain.suffix h.2.2
    have houter : Chain null next cell (cell :: (front ++ cell :: back)) := ⟨rfl, h.2.1, h.2.2⟩
    have hlength := congrArg List.length (Chain.unique hinner houter)
    simp only [List.length_cons, List.length_append] at hlength
    omega

/-- A null-terminated list of natural-number cells below a bound is shorter than the bound. -/
theorem Chain.length_lt {next : ℕ → ℕ} {head bound : ℕ} {cells : List ℕ}
    (h : Chain 0 next head cells) (hbound : ∀ cell ∈ cells, cell < bound) (hpos : 0 < bound) :
    cells.length < bound := by
  have hsubset : cells.toFinset ⊆ Finset.Ioo 0 bound := by
    intro cell hcell
    rw [List.mem_toFinset] at hcell
    exact Finset.mem_Ioo.mpr ⟨Nat.pos_of_ne_zero (Path.ne_null h hcell), hbound cell hcell⟩
  have hcard := Finset.card_le_card hsubset
  rw [List.toFinset_card_of_nodup (Chain.nodup h), Nat.card_Ioo] at hcard
  omega

/-- Every cell of a list whose head and links are words is a word. -/
theorem Chain.mem_lt {next : ℕ → ℕ} {head bound : ℕ} {cells : List ℕ}
    (h : Chain 0 next head cells) (hhead : head < bound) (hnext : ∀ cell, next cell < bound) :
    ∀ cell ∈ cells, cell < bound := by
  induction cells generalizing head with
  | nil => simp
  | cons first cells ih =>
    obtain ⟨rfl, -, hrest⟩ := h
    intro cell hcell
    rcases List.mem_cons.mp hcell with rfl | hlater
    · exact hhead
    · exact ih hrest (hnext _) cell hlater

end SideHOS.Linked
