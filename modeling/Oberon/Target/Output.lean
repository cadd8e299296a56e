/-!
# Output with captures

Compiled text goes to two units.  While a capture is open, text for the implementation goes to the
innermost capture instead.
-/

namespace Oberon

/-- The two texts of a compiled module. -/
structure Units where
  implementation : String := ""
  interface : String := ""
  deriving DecidableEq, Repr

/-- The text written so far; open captures stand innermost first. -/
structure Output where
  units : Units := {}
  captures : List String := []
  deriving DecidableEq, Repr

namespace Output

/-- Writes to the innermost capture or, if none is open, to the implementation. -/
def write (o : Output) (text : String) : Output :=
  match o.captures with
  | [] => { o with units := { o.units with implementation := o.units.implementation ++ text } }
  | capture :: outer => { o with captures := (capture ++ text) :: outer }

/-- Writes to the interface. -/
def publish (o : Output) (text : String) : Output :=
  { o with units := { o.units with interface := o.units.interface ++ text } }

/-- Opens a capture. -/
def openCapture (o : Output) : Output :=
  { o with captures := "" :: o.captures }

/-- The text of the innermost capture; without one there is no text. -/
def captured (o : Output) : String :=
  o.captures.headD ""

/-- Closes the innermost capture. -/
def closeCapture (o : Output) : Output :=
  { o with captures := o.captures.tail }

/-- Whether a capture is open. -/
def capturing (o : Output) : Bool :=
  !o.captures.isEmpty

end Output
end Oberon
