import LoxLang.Text.Hidden

/-! # Quoted names

A name inside a message stands in quotes, single ones unless it holds a single quote and no double
one. Inside the quotes the backslash, the quote and the hidden characters are escaped. -/

namespace LoxLang
namespace Quoted

/-- The quote to put around a name. -/
def quoteFor (name : List Char) : Char :=
  if name.contains '\'' && !name.contains '"' then '"' else '\''

/-- The lower case hexadecimal digits of `n`, at least `width` of them. -/
def hex (width n : Nat) : List Char :=
  let digits := Nat.toDigits 16 n
  List.replicate (width - digits.length) '0' ++ digits

/-- The escape of a hidden character, by its number. -/
def escapeNumber (n : Nat) : List Char :=
  if n < 0x100 then '\\' :: 'x' :: hex 2 n
  else if n < 0x10000 then '\\' :: 'u' :: hex 4 n
  else '\\' :: 'U' :: hex 8 n

/-- A character as it stands inside quotes. -/
def escape (quote c : Char) : List Char :=
  if c = '\\' ∨ c = quote then ['\\', c]
  else if c = '\n' then ['\\', 'n']
  else if c = '\r' then ['\\', 'r']
  else if c = '\t' then ['\\', 't']
  else if isHidden c then escapeNumber c.toNat
  else [c]

/-- A name in quotes. -/
def quote (name : String) : String :=
  let q := quoteFor name.toList
  String.ofList (q :: name.toList.flatMap (escape q) ++ [q])

end Quoted

end LoxLang
