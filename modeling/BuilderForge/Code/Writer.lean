import BuilderForge.Code.Fragment
/-
  Writers: indented text under construction.

  A writer has a level of indentation and the text written so far. Lines start
  at the level, blank lines at the margin. Emitting a fragment moves the level
  down for the body and back up after it, so the level is the same before and
  after. The text is held in reverse, which makes writing at its end cheap;
  `text` is how it is read.
-/

namespace BuilderForge.Code

/-- A text under construction. -/
structure Writer where
  indentation : Indent
  level : Nat
  reversed : Text

namespace Writer

/-- A writer that has written nothing. -/
def start (indentation : Indent) : Writer := ⟨indentation, 0, []⟩

/-- The text written so far. -/
def text (w : Writer) : Text := w.reversed.reverse

/-- Writes characters at the end of the text. -/
def write (w : Writer) (s : Text) : Writer := { w with reversed := s.reverseAux w.reversed }

/-- The indentation of a line at the present level. -/
def margin (w : Writer) : Text := (List.replicate w.level w.indentation.unit).flatten

/-- Writes a line at the present level. -/
def line (w : Writer) (s : Text) : Writer := ((w.write w.margin).write s).write ['\n']

/-- Writes a line without characters. -/
def blank (w : Writer) : Writer := w.write ['\n']

/-- Moves one level in. -/
def deeper (w : Writer) : Writer := { w with level := w.level + 1 }

/-- Moves one level out; at the margin there is nowhere to go. -/
def shallower (w : Writer) : Writer := { w with level := w.level - 1 }

/-- Writes the line that closes a block, if there is one. -/
def close (w : Writer) : Option Text → Writer
  | some s => w.line s
  | none => w

mutual

/-- Writes a fragment at the present level. -/
def emit (w : Writer) : Fragment → Writer
  | .line s => w.line s
  | .blank => w.blank
  | .indent body => (w.deeper.emitAll body).shallower
  | .block header body last => ((w.line header).deeper.emitAll body).shallower.close last

/-- Writes fragments one after the other. -/
def emitAll (w : Writer) : List Fragment → Writer
  | [] => w
  | f :: fs => (w.emit f).emitAll fs

end

end Writer

end BuilderForge.Code
