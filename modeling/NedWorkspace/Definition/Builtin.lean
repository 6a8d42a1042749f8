/-
# Built-in declarations

SPEC_FULL, section 3: the built-in declarations.

The types that every project sees before any of its own: three channels and two interfaces, all in
package `ned`.
-/

import NedWorkspace.Syntax.Declaration

namespace NedWorkspace
namespace Builtin

/-- The built-in declarations as a text. -/
def text : String :=
  "
package ned;

channel IdealChannel
\x7b
    @class(cIdealChannel);
\x7d

channel DelayChannel
\x7b
    @class(cDelayChannel);
    bool disabled = default(false);
    double delay = default(0s) @unit(s);
\x7d

channel DatarateChannel
\x7b
    @class(cDatarateChannel);
    bool disabled = default(false);
    double delay = default(0s) @unit(s);
    double datarate = default(0bps) @unit(bps);
    double ber = default(0);
    double per = default(0);
\x7d

moduleinterface IBidirectionalChannel
\x7b
    gates:
        inout a;
        inout b;
\x7d

moduleinterface IUnidirectionalChannel
\x7b
    gates:
        input i;
        output o;
\x7d
"

/-- The tree of the built-in declarations. -/
def tree : Tree :=
  (Parse.ofText text).tree

end Builtin
end NedWorkspace
