/-!
The name and version that the program gives itself.
-/

namespace MiniScriptLayout
namespace Program

def name : String :=
  "msfmt"

def version : String :=
  "0.1.0"

end Program
end MiniScriptLayout
