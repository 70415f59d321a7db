import Mathlib.Data.List.GetD
import Mathlib.Tactic

/-!
# A line of a terminal

A `Terminal` is any device that does with a graphic character, a backspace and a delete what the
manuals of terminals say: the character goes into the cell at the cursor and the cursor moves on, as
long as it stays within the columns; a backspace moves the cursor back without a change to a cell,
and does nothing at the left margin; a delete is ignored.  Nothing is said of any other byte, nor of
the last column.  `videoTerminal` is a device of this kind.

A line `Reads` as a text when the text stands before the cursor, and `Shows` the text when moreover
there is nothing behind it.
-/

namespace SideHOS.Machine

/-- The line that the cursor is on. -/
@[ext]
structure Screen where
  cells : ℕ → UInt8
  cursor : ℕ

namespace Screen

def put (screen : Screen) (byte : UInt8) : Screen where
  cells := Function.update screen.cells screen.cursor byte
  cursor := screen.cursor + 1

def back (screen : Screen) : Screen := { screen with cursor := screen.cursor - 1 }

/-- The text stands at the start of the line, and the cursor at its end. -/
structure Reads (screen : Screen) (text : List UInt8) : Prop where
  cells : ∀ i < text.length, screen.cells i = text.getD i 32
  cursor : screen.cursor = text.length

structure Shows (screen : Screen) (text : List UInt8) : Prop extends Reads screen text where
  blanks : ∀ i ≥ text.length, screen.cells i = 32

variable {screen : Screen} {text other : List UInt8} {byte : UInt8}

/-- A line reads as one text at most. -/
theorem Reads.unique (h : Reads screen text) (hother : Reads screen other) : text = other := by
  have hlength : text.length = other.length := h.cursor.symm.trans hother.cursor
  apply List.ext_getElem hlength
  intro i hi hi'
  have hcell := (h.cells i hi).symm.trans (hother.cells i hi')
  rwa [List.getD_eq_getElem _ _ hi, List.getD_eq_getElem _ _ hi'] at hcell

theorem Reads.put (h : Reads screen text) : Reads (screen.put byte) (text ++ [byte]) := by
  constructor
  · intro i hi
    change Function.update screen.cells screen.cursor byte i = _
    rw [List.length_append, List.length_singleton, Nat.lt_succ_iff_lt_or_eq] at hi
    rw [h.cursor]
    rcases hi with hi | rfl
    · rw [Function.update_of_ne hi.ne, h.cells i hi, List.getD_append _ _ _ _ hi]
    · rw [Function.update_self, List.getD_append_right _ _ _ _ le_rfl, Nat.sub_self]
      rfl
  · change screen.cursor + 1 = _
    rw [h.cursor, List.length_append, List.length_singleton]

theorem Shows.put (h : Shows screen text) : Shows (screen.put byte) (text ++ [byte]) where
  toReads := h.toReads.put
  blanks i hi := by
    rw [List.length_append, List.length_singleton] at hi
    change Function.update screen.cells screen.cursor byte i = _
    rw [h.cursor, Function.update_of_ne (Nat.ne_of_gt hi), h.blanks i (Nat.le_of_succ_le hi)]

theorem Reads.back (h : Reads screen text) : Reads screen.back text.dropLast where
  cells i hi := by
    have hlt : i < text.length := hi.trans_le (by rw [List.length_dropLast]; exact Nat.sub_le ..)
    change screen.cells i = _
    rw [h.cells i hlt, List.getD_eq_getElem _ _ hlt, List.getD_eq_getElem _ _ hi,
      List.getElem_dropLast]
  cursor := by
    change screen.cursor - 1 = _
    rw [h.cursor, List.length_dropLast]

/-- Going back, putting a character there and going back again takes the last one away. -/
theorem Reads.rubout (h : Reads screen text) :
    Reads (screen.back.put byte).back text.dropLast := by
  have hput : Reads (screen.back.put byte) (text.dropLast ++ [byte]) := h.back.put
  have hback := hput.back
  rwa [List.dropLast_concat] at hback

theorem Shows.rubout (h : Shows screen text) :
    Shows (screen.back.put 32).back text.dropLast where
  toReads := h.toReads.rubout
  blanks i hi := by
    rw [List.length_dropLast] at hi
    change Function.update screen.cells (screen.cursor - 1) 32 i = _
    rw [h.cursor]
    by_cases heq : i = text.length - 1
    · rw [heq, Function.update_self]
    · rw [Function.update_of_ne heq, h.blanks i (by omega)]

end Screen

/-- A graphic character. -/
abbrev Graphic (byte : UInt8) : Prop := 32 ≤ byte ∧ byte ≤ 126

/-- A terminal with some number of columns. -/
structure Terminal (Device : Type) where
  columns : ℕ
  receive : Device → UInt8 → Device
  screen : Device → Screen
  screen_graphic : ∀ device byte, Graphic byte → (screen device).cursor + 1 < columns →
    screen (receive device byte) = (screen device).put byte
  screen_backspace : ∀ device, screen (receive device 8) = (screen device).back
  screen_delete : ∀ device, screen (receive device 127) = screen device

namespace Terminal

def display {Device : Type} (terminal : Terminal Device) (device : Device) (bytes : List UInt8) :
    Screen :=
  terminal.screen (bytes.foldl terminal.receive device)

section Display

variable {Device : Type} {terminal : Terminal Device} {device : Device} {bytes : List UInt8}
  {byte : UInt8}

theorem display_backspace : terminal.display device (bytes ++ [8]) =
    (terminal.display device bytes).back := by
  rw [display, List.foldl_append]
  exact terminal.screen_backspace _

theorem display_delete :
    terminal.display device (bytes ++ [127]) = terminal.display device bytes := by
  rw [display, List.foldl_append]
  exact terminal.screen_delete _

theorem display_graphic (hbyte : Graphic byte)
    (hroom : (terminal.display device bytes).cursor + 1 < terminal.columns) :
    terminal.display device (bytes ++ [byte]) = (terminal.display device bytes).put byte := by
  rw [display, List.foldl_append]
  exact terminal.screen_graphic _ _ hbyte hroom

theorem display_rubout
    (hroom : (terminal.display device bytes).cursor - 1 + 1 < terminal.columns) :
    terminal.display device (bytes ++ [8, 32, 8]) =
      ((terminal.display device bytes).back.put 32).back := by
  have hback : terminal.display device (bytes ++ [8]) = (terminal.display device bytes).back :=
    display_backspace
  calc terminal.display device (bytes ++ [8, 32, 8])
    _ = terminal.display device (((bytes ++ [8]) ++ [32]) ++ [8]) := by
      rw [List.append_assoc, List.append_assoc]
      rfl
    _ = ((terminal.display device (bytes ++ [8])).put 32).back := by
      rw [display_backspace, display_graphic (by decide)]
      rw [hback]
      exact hroom
    _ = ((terminal.display device bytes).back.put 32).back := by rw [hback]

end Display

/-- A terminal of 80 columns: the cursor stays in the last one, a carriage return takes it to the
first one, a line feed to a new line, and other control characters have no effect. -/
def videoTerminal : Terminal Screen where
  columns := 80
  receive screen byte :=
    if byte = 8 then screen.back
    else if byte = 10 then { screen with cells := fun _ ↦ 32 }
    else if byte = 13 then { screen with cursor := 0 }
    else if byte < 32 ∨ byte = 127 then screen
    else { screen.put byte with cursor := min (screen.cursor + 1) 79 }
  screen := id
  screen_graphic screen byte hbyte hroom := by
    have hcontrol : ¬ (byte < 32 ∨ byte = 127) := by
      rintro (hlt | rfl)
      · exact absurd hlt (UInt8.not_lt.mpr hbyte.1)
      · exact absurd hbyte.2 (by decide)
    have hne : ∀ other < (32 : UInt8), byte ≠ other := by
      rintro _ hother rfl
      exact hcontrol (.inl hother)
    rw [if_neg (hne 8 (by decide)), if_neg (hne 10 (by decide)), if_neg (hne 13 (by decide)),
      if_neg hcontrol]
    exact Screen.ext rfl (min_eq_left (Nat.le_of_lt_succ hroom))
  screen_backspace _ := rfl
  screen_delete _ := rfl

end Terminal

end SideHOS.Machine
