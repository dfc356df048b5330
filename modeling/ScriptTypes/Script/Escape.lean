/-!
# Escapes in string literals

A backslash gives the next character a special meaning: some letters stand for control characters,
a line end after a backslash is dropped together with it, and any other character stands for
itself.
-/

namespace ScriptTypes.Script

/-- What a character after a backslash stands for. -/
def escaped : Char → List Char
  | 'n' => ['\n']
  | 't' => ['\t']
  | 'r' => ['\r']
  | 'b' => ['\x08']
  | 'f' => ['\x0c']
  | 'v' => ['\x0b']
  | '0' => ['\x00']
  | '\n' => []
  | '\r' => []
  | c => [c]

/-- The characters that the inside of a string literal stands for. -/
def unescape : List Char → List Char
  | [] => []
  | ['\\'] => []
  | '\\' :: c :: cs => escaped c ++ unescape cs
  | c :: cs => c :: unescape cs

end ScriptTypes.Script
