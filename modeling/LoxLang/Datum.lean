import LoxLang.Decimal.Numeral

/-! # Plain data

The values that stand for themselves: what a literal in a program denotes and, with functions,
classes and objects, what a program computes with. -/

namespace LoxLang

/-- A plain value. -/
inductive Datum
  | nil
  | bool (b : Bool)
  | number (x : Float)
  | text (s : String)
  /-- An exact integer of the embedding program. No program can make one or compute with one. -/
  | integer (n : Int)

namespace Datum

/-- Only nil and false count as false in a condition. -/
def isTruthy : Datum → Bool
  | nil => false
  | bool b => b
  | _ => true

/-- Data of different kinds are never equal, and a number that is no number equals none. -/
def equal : Datum → Datum → Bool
  | nil, nil => true
  | bool a, bool b => a == b
  | number x, number y => x == y
  | text s, text t => s == t
  | integer m, integer n => m == n
  | _, _ => false

/-- The text of a datum as a program prints it. -/
def display : Datum → String
  | nil => "nil"
  | bool b => if b then "true" else "false"
  | number x => numeral .display x
  | text s => s
  | integer n => toString n

/-- The text of a datum in a token list, where nil stands for a token without a literal. -/
def tokenText : Datum → String
  | nil => "null"
  | number x => numeral .exact x
  | d => d.display

end Datum

end LoxLang
