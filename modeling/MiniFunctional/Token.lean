-- The tokens of the language and the positions they carry, from
-- `util/position.hpp` and `tokenization/token.hpp`.
import Mathlib.Data.List.Basic
import Mathlib.Data.List.Nodup

namespace mf

namespace util

structure Position where
  begin_line : Nat
  begin_column : Nat
  end_line : Nat
  end_column : Nat
deriving DecidableEq, Repr

/-- `std::format("Line {}, Col {} : Line {}, Col {}", ...)`. -/
def Position.toText (p : Position) : String :=
  "Line " ++ toString p.begin_line ++ ", Col " ++ toString p.begin_column ++
    " : Line " ++ toString p.end_line ++ ", Col " ++ toString p.end_column

end util

namespace tokenization

open util

/-- `TokenVariant`. The payload of a literal is a C++ `int`. -/
inductive TokenVariant
  -- literals
  | IntLiteral (value : Int32)
  -- identifiers
  | LowerVariable (name : String)
  | UpperVariable (name : String)
  -- keywords
  | Function
  | Data
  | Case
  | Of
  -- operators
  | Equal
  | Arrow
  | Plus
  | Minus
  | Star
  | Slash
  -- delimiters
  | LeftBrace
  | RightBrace
  | LeftParentheses
  | RightParentheses
  | Comma
deriving DecidableEq, Repr

structure Token where
  load : TokenVariant
  position : Position
deriving DecidableEq, Repr

/-- The loads of a token list, without the positions. -/
abbrev loads (ts : List Token) : List TokenVariant := ts.map (·.load)

/-- `std::vector<Token>::max_size()`, which is `PTRDIFF_MAX / sizeof(Token)`. A
token has a variant with a `std::string` in it and four `std::size_t`: 64 bytes,
and in some standard libraries more. -/
def maxTokens : Nat := 0x7FFFFFFFFFFFFFFF / 64

/-- A `std::vector<Token>`: no vector holds more than `max_size()` tokens. -/
structure TokenVector where
  tokens : List Token
  fits : tokens.length ≤ maxTokens

end tokenization

end mf
