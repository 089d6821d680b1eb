/-
TOML integers and floats.
-/

namespace SymbolAtlas
namespace Toml
namespace Number

def digitValue (c : Char) : Nat :=
  if '0' ≤ c ∧ c ≤ '9' then c.toNat - '0'.toNat
  else if 'a' ≤ c ∧ c ≤ 'z' then c.toNat - 'a'.toNat + 10
  else if 'A' ≤ c ∧ c ≤ 'Z' then c.toNat - 'A'.toNat + 10
  else 36

def isDigitIn (base : Nat) (c : Char) : Bool := decide (digitValue c < base)

def valueIn (base : Nat) (digits : List Char) : Nat :=
  digits.foldl (fun n d => base * n + digitValue d) 0

/-- The digits that come next.  An underscore may stand between two of them. -/
def moreDigits (base : Nat) : List Char → Option (List Char × List Char)
  | [] => some ([], [])
  | ['_'] => none
  | '_' :: d :: rest =>
    if isDigitIn base d then (moreDigits base rest).map fun r => (d :: r.1, r.2) else none
  | c :: rest =>
    if isDigitIn base c then (moreDigits base rest).map fun r => (c :: r.1, r.2)
    else some ([], c :: rest)

/-- One digit and those that follow. -/
def digits? (base : Nat) : List Char → Option (List Char × List Char)
  | [] => none
  | c :: rest =>
    if isDigitIn base c then (moreDigits base rest).map fun r => (c :: r.1, r.2) else none

/-- Whether the number is negative, and the text behind its sign. -/
def sign : List Char → Bool × List Char
  | '+' :: rest => (false, rest)
  | '-' :: rest => (true, rest)
  | s => (false, s)

/-- Decimal digits without a zero in front of others. -/
def decimalDigits? : List Char → Option (List Char × List Char)
  | '0' :: rest => some (['0'], rest)
  | s => digits? 10 s

def fitsWord (n : Int) : Bool :=
  decide (-0x8000000000000000 ≤ n) && decide (n ≤ 0x7FFFFFFFFFFFFFFF)

def inBase? (base : Nat) (s : List Char) : Option (Int × List Char) :=
  (digits? base s).map fun r => (Int.ofNat (valueIn base r.1), r.2)

/-- An integer, which must fit into 64 bits with its sign. -/
def integer? (s : List Char) : Option (Int × List Char) :=
  let read : Option (Int × List Char) := match s with
    | '0' :: 'x' :: rest => inBase? 16 rest
    | '0' :: 'o' :: rest => inBase? 8 rest
    | '0' :: 'b' :: rest => inBase? 2 rest
    | s =>
      let (negative, rest) := sign s
      (decimalDigits? rest).map fun r =>
        let n := Int.ofNat (valueIn 10 r.1)
        (if negative then -n else n, r.2)
  read.filter fun r => fitsWord r.1

/-! ## Floats -/

/-- The least number that a double precision float rounds up to infinity. -/
def overflowLimit : Nat := 0x3FFFFFFFFFFFFF * Nat.pow 2 970

/-- Whether `digits` times ten to `exponent` reaches that number.  The count of
digits settles it unless the two are of like size, so that no large power is ever
computed. -/
def overflows (digits : Nat) (exponent : Int) : Bool :=
  let size := Int.ofNat (Nat.toDigits 10 digits).length + exponent
  if digits = 0 then false
  else if size < 309 then false
  else if 310 < size then true
  else if 0 ≤ exponent then decide (overflowLimit ≤ digits * Nat.pow 10 exponent.toNat)
  else decide (overflowLimit * Nat.pow 10 (-exponent).toNat ≤ digits)

/-- An exponent and the text behind it. -/
def exponent? : List Char → Option (Int × List Char)
  | c :: s =>
    if c = 'e' ∨ c = 'E' then
      let (negative, rest) := sign s
      (digits? 10 rest).map fun r =>
        let n := Int.ofNat (valueIn 10 r.1)
        (if negative then -n else n, r.2)
    else none
  | [] => none

/-- The digits behind the point, none if there is no point, and the exponent. -/
def fraction? (s : List Char) : Option (List Char × Int × List Char) :=
  match s with
  | '.' :: rest =>
    (digits? 10 rest).bind fun r =>
      match r.2 with
      | 'e' :: _ | 'E' :: _ => (exponent? r.2).map fun e => (r.1, e.1, e.2)
      | _ => some (r.1, 0, r.2)
  | _ => (exponent? s).map fun e => ([], e.1, e.2)

/-- The text behind a number that has a fraction or an exponent.  A positive one
must not be too large for a double precision float. -/
def decimalFloat? (s : List Char) : Option (List Char) :=
  let (negative, rest) := sign s
  (decimalDigits? rest).bind fun whole =>
    (fraction? whole.2).bind fun f =>
      let digits := valueIn 10 (whole.1 ++ f.1)
      let exponent := f.2.1 - Int.ofNat f.1.length
      if !negative && overflows digits exponent then none else some f.2.2

/-- The text behind one of the numbers that have no digits. -/
def specialFloat? (s : List Char) : Option (List Char) :=
  match (sign s).2 with
  | 'i' :: 'n' :: 'f' :: rest => some rest
  | 'n' :: 'a' :: 'n' :: rest => some rest
  | _ => none

def float? (s : List Char) : Option (List Char) := (decimalFloat? s).or (specialFloat? s)

end Number
end Toml
end SymbolAtlas
