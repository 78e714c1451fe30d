/-
The debug log: a number of lines that may be shown, and a count of those that
came after it was used up.
-/
import DdlDiagram.Notice

namespace DdlDiagram

open Text

/-- `room` lines may still be shown; `shown` lists the lines shown so far,
latest first. -/
structure DebugLog where
  room : Nat
  shown : List Text
  suppressed : Nat
deriving DecidableEq, Repr

namespace DebugLog

/-- A log that shows at most so many lines. -/
def withBudget (budget : Nat) : DebugLog :=
  ⟨budget, [], 0⟩

/-- Show a line while there is room, and count it otherwise. -/
def write (log : DebugLog) (line : Text) : DebugLog :=
  match log.room with
  | 0 => { log with suppressed := log.suppressed + 1 }
  | room + 1 => { log with room := room, shown := line :: log.shown }

/-- The line that tells how many lines were not shown. -/
def suppressionLine (count : Nat) : Text :=
  "[debug] ... ".toList ++ decimal count ++
    " more line(s) suppressed (raise --debug-lines to see them)".toList

/-- The lines of a finished log, marked as such, and what was cut. -/
def lines (log : DebugLog) : List Text :=
  log.shown.reverse.map ("[debug] ".toList ++ ·) ++
    if log.suppressed = 0 then [] else [suppressionLine log.suppressed]

end DebugLog

end DdlDiagram
