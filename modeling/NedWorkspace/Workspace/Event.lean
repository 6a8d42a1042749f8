/-
# Events

SPEC_FULL, section 4.5: the events of the ChangeNotifier.

What the listeners of a workspace are told. Related events stand between a `began` and an `ended`.
-/

import NedWorkspace.Definition.Basic
import NedWorkspace.Path

namespace NedWorkspace

/-- A change that listeners are told of. -/
inductive Event where
  | began
  | ended
  /-- A file was loaded for the first time. -/
  | fileLoaded (file : FileId)
  /-- A new tree was merged into that of a file. -/
  | treeMerged (file : FileId)
  /-- A file was forgotten. -/
  | fileRemoved (path : Path)
  /-- The types that there are may have changed, by a file or in any way at all. -/
  | modelChanged (file : Option FileId)
  /-- The published diagnostics of a file changed. -/
  | diagnosticsChanged (file : FileId)
deriving Repr

/-- The sorts of events. -/
inductive EventSort where
  | began
  | ended
  | fileLoaded
  | treeMerged
  | fileRemoved
  | modelChanged
  | diagnosticsChanged
deriving DecidableEq, Repr

namespace Event

/-- What sort of event it is. -/
def sort : Event → EventSort
  | began => .began
  | ended => .ended
  | fileLoaded _ => .fileLoaded
  | treeMerged _ => .treeMerged
  | fileRemoved _ => .fileRemoved
  | modelChanged _ => .modelChanged
  | diagnosticsChanged _ => .diagnosticsChanged

end Event

end NedWorkspace
