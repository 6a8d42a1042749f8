/-
# Operations that fail

SPEC_FULL, section 7: ambient error handling.

Only operations fail; what is wrong inside a file is a diagnostic. Several failures of one batch are
one failure that lists them.
-/

import NedWorkspace.Path

namespace NedWorkspace

/-- Why an operation failed. -/
inductive WorkspaceError where
  | unreadable (path : Path) (cause : String)
  | notLoaded (path : Path)
  | notConnected (path : Path)
  | notNedFile (path : Path)
  | editorConnected (path : Path)
  | badConfiguration (text : String)
  | batch (errors : List WorkspaceError)

mutual

/-- The failure in words. -/
def WorkspaceError.message : WorkspaceError → String
  | .unreadable path cause => "cannot read " ++ path.text ++ ": " ++ cause
  | .notLoaded path => "file not loaded: " ++ path.text
  | .notConnected path => "file has no connected editor: " ++ path.text
  | .notNedFile path => "not a NED file: " ++ path.text
  | .editorConnected path => "cannot reload " ++ path.text ++ " while an editor is connected"
  | .badConfiguration text => "project configuration error: " ++ text
  | .batch errors =>
    toString errors.length ++ " operation(s) failed: " ++ WorkspaceError.messages errors

/-- Several failures with semicolons between them. -/
def WorkspaceError.messages : List WorkspaceError → String
  | [] => ""
  | [e] => e.message
  | e :: es => e.message ++ "; " ++ WorkspaceError.messages es

end

namespace WorkspaceError

/-- No failure, the only failure, or a batch of them. -/
def ofList : List WorkspaceError → Except WorkspaceError Unit
  | [] => .ok ()
  | [e] => .error e
  | es => .error (.batch es)

end WorkspaceError

end NedWorkspace
