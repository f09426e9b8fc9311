/-!
# Editions

The language comes in four editions. Each has its own tokens, grammar and rules; types and intermediate code
begin with the second, the target language with the third.
-/

namespace Tabc

inductive Edition where
  | first
  | second
  | third
  | fourth
deriving DecidableEq, Inhabited

end Tabc
