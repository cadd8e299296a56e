import Oberon.Keyword

/-!
# C spellings

The fixed texts of a compiled module: mangled names, declarators, constants, includes, and the frame
of the interface and of the module initializer.
-/

namespace Oberon
namespace Target

/-- A name of a module: the module's name, an underscore, the name. -/
def mangle (module name : String) : String :=
  module ++ "_" ++ name

/-- A mangled name between the two halves of its type. -/
def declaration (left module name right : String) : String :=
  left ++ " " ++ mangle module name ++ right

/-- The line that defines a constant. -/
def constantLine (module name value : String) : String :=
  "#define\t" ++ mangle module name ++ "\t" ++ value ++ "\n"

/-- The C name of a built-in type. -/
def builtinType? : Keyword → Option String
  | .INTEGER => some "int"
  | .LONGINT => some "long"
  | .REAL => some "float"
  | .LONGREAL => some "double"
  | .BOOLEAN => some "bool"
  | .CHAR => some "char"
  | _ => none

/-- Includes a header of the program. -/
def includeLine (header : String) : String :=
  "#include \"" ++ header ++ "\"\n"

/-- The standard headers of every interface. -/
def standardHeaders : List String :=
  ["stdint.h", "stdbool.h", "stdlib.h", "string.h", "math.h"]

/-- The macro that shifts by an amount of either sign. -/
def shiftMacro (module : String) : String :=
  module ++ "_ASH"

/-- The head of an interface: include guard, standard headers and the shift macro. -/
def interfaceHead (module : String) : String :=
  "#ifndef " ++ module ++ "_H\n#define " ++ module ++ "_H\n\n"
    ++ String.join (standardHeaders.map fun header => "#include <" ++ header ++ ">\n")
    ++ "#define " ++ shiftMacro module ++ "(x, n) ((n) >= 0 ? ((x) << (n)) : ((x) >> -(n)))\n\n"

/-- The name of the module initializer. -/
def initializer (module : String) : String :=
  "mod_" ++ module ++ "_init"

/-- The flag that keeps the initializer from running twice. -/
def initialized (module : String) : String :=
  "is_" ++ module ++ "_init"

/-- The head of the module initializer, up to the module body. -/
def initializerHead (module : String) : String :=
  "\nstatic bool " ++ initialized module ++ " = false;\nvoid " ++ initializer module
    ++ "() \x7b\nif (" ++ initialized module ++ ") \x7b\nreturn;\n\x7d\n" ++ initialized module ++
      " = true;\n"

/-- The tail of an interface: the initializer and the end of the include guard. -/
def interfaceTail (module : String) : String :=
  "\nextern void " ++ initializer module ++ "();\n\n#endif\n"

end Target
end Oberon
