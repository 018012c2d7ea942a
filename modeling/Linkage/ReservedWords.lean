/-!
# Reserved words

Names that would mean something else in a linked program: the keywords of the language it is written in, the names of
numeric types, and the keywords of the scripts that it embeds. A code generator puts a `$` after them.
-/
namespace Linkage.ReservedWords

def outputWords : List String := [
  "abstract", "arguments", "boolean", "break", "byte", "case", "catch", "char", "class", "const",
  "continue", "debugger", "default", "delete", "do", "double", "else", "enum", "eval", "export",
  "extends", "false", "final", "finally", "float", "for", "function", "goto", "if", "implements",
  "import", "in", "instanceof", "int", "interface", "let", "long", "native", "new", "null",
  "package", "private", "protected", "public", "return", "short", "static", "super", "switch",
  "synchronized", "this", "throw", "throws", "transient", "true", "try", "typeof", "undefined",
  "var", "void", "volatile", "while", "with", "yield"]

def numericTypes : List String := [
  "int", "uint", "uint8", "uint16", "uint32", "uint64", "int8", "int16", "int32", "int64",
  "float32", "float64", "complex64", "complex128", "byte", "rune", "uintptr"]

def scriptWords : List String := [
  "and", "break", "do", "else", "elseif", "end", "false", "for", "function", "if", "in", "local",
  "nil", "not", "or", "repeat", "return", "then", "true", "until", "while"]

def all : List String := (outputWords ++ numericTypes ++ scriptWords).eraseDups

def isReserved (name : String) : Bool := all.contains name

def isNumericType (name : String) : Bool := numericTypes.contains name

/-- A reserved name followed by `$`; any other name as it is. -/
def avoid (name : String) : String := if isReserved name then name.push '$' else name

end Linkage.ReservedWords
