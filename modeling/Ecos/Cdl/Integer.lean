import Mathlib

/-! `host/libcdl/cdlmisc.cxx`: strings and integers. A string is the list of its characters, and a `cdl_int` has 64 bits. -/

namespace Ecos.Cdl

inductive CdlValueFormat
  | default
  | hex
  | octal
  deriving DecidableEq

namespace Integer

/-- What is stored in a `cdl_int`. -/
def wrap (n : Int) : Int := n.bmod (2 ^ 64)

def isspace (c : Char) : Bool := c.toNat = 32 ∨ 9 ≤ c.toNat ∧ c.toNat ≤ 13

def isdigit (c : Char) : Bool := 48 ≤ c.toNat ∧ c.toNat ≤ 57

def isodigit (c : Char) : Bool := 48 ≤ c.toNat ∧ c.toNat ≤ 55

def isxdigit (c : Char) : Bool := isdigit c ∨ 97 ≤ c.toNat ∧ c.toNat ≤ 102 ∨ 65 ≤ c.toNat ∧ c.toNat ≤ 70

/-- What is added for a digit. -/
def digitValue (c : Char) : Int :=
  if isdigit c then c.toNat - 48 else if 97 ≤ c.toNat then c.toNat + 10 - 97 else c.toNat + 10 - 65

/-- The loop over the digits, and where it stops. -/
def accumulate (base : Int) (isDigit : Char → Bool) : Int → List Char → Option (Int × List Char)
  | acc, [] => some (acc, [])
  | acc, c :: rest =>
    if isDigit c then
      let newAcc := wrap (wrap (base * acc) + digitValue c)
      if newAcc < acc then none else accumulate base isDigit newAcc rest
    else some (acc, c :: rest)

/-- The end of each of the three branches. -/
def finish (negative : Bool) : Int × List Char → Option Int
  | (acc, rest) =>
    if rest ≠ [] then none
    else if negative then
      if 0 < wrap (0 - acc) then none else some (wrap (0 - acc))
    else some acc

/-- The signs that are seen, and what follows them. -/
structure Reading where
  seenPlus : Bool
  seenMinus : Bool
  ptr : List Char

/-- The first part: `c_str` ends at the first `'\0'`. -/
def read (data : List Char) : Reading :=
  let ptr := (data.takeWhile (· ≠ '\x00')).dropWhile isspace
  let seenPlus : Bool := ptr.head? = some '+'
  let ptr := if seenPlus then ptr.tail else ptr
  let seenMinus : Bool := ptr.head? = some '-'
  ⟨seenPlus, seenMinus, if seenMinus then ptr.tail else ptr⟩

/-- What is done with the text behind the signs. -/
def convert (negative : Bool) : List Char → Option Int
  | ['0'] => some 0
  | '0' :: c :: rest =>
    if c = 'x' ∨ c = 'X' then
      if rest.head?.any isxdigit then (accumulate 16 isxdigit 0 rest).bind (finish negative) else none
    else if isodigit c then (accumulate 8 isodigit 0 (c :: rest)).bind (finish negative)
    else (accumulate 10 isdigit 0 ('0' :: c :: rest)).bind (finish negative)
  | ptr => (accumulate 10 isdigit 0 ptr).bind (finish negative)

/-- `Cdl::string_to_integer`. -/
def stringToInteger (data : List Char) : Option Int := convert (read data).seenMinus (read data).ptr

/-- A write to `local_buf`, which has 23 characters before the terminator and is filled from its end. -/
def put (c : Char) (buf : List Char) : Option (List Char) := if buf.length < 23 then some (c :: buf) else none

def hexDigit (tmp : Int) : Char :=
  if tmp < 10 then Char.ofNat (48 + tmp.toNat) else Char.ofNat (65 + (tmp - 10).toNat)

/-- Four bits at a time. -/
def putHex : Nat → Int → List Char → Option (Int × List Char)
  | 0, value, buf => some (value, buf)
  | n + 1, value, buf => (put (hexDigit (value % 16)) buf).bind (putHex n (value / 16))

/-- The loops of the other formats. The mask of the octal one keeps all bits of a positive value. -/
def putDigits (base : Int) : Nat → Int → List Char → Option (List Char)
  | 0, value, buf => if 0 < value then none else some buf
  | fuel + 1, value, buf =>
    if 0 < value then (put (Char.ofNat (48 + (value % base).toNat)) buf).bind (putDigits base fuel (value / base))
    else some buf

/-- `Cdl::integer_to_string`, unless a write is out of bounds. -/
def integerToString (value : Int) (format : CdlValueFormat) : Option (List Char) :=
  if value = 0 then some (if format = .hex then "0x0".toList else "0".toList)
  else match format with
  | .hex => do
    let (value, buf) ← putHex 8 value []
    -- an `int` shifted left
    let value := (value / 2 ^ 16 % 2 ^ 16 * 2 ^ 16).bmod (2 ^ 32) + value % 2 ^ 16
    let buf ← if value ≠ 0 then (putHex 8 value buf).map Prod.snd else some buf
    put '0' (← put 'x' buf)
  | .octal => do put '0' (← putDigits 8 64 value [])
  | .default =>
    if value < 0 then
      let value := wrap (0 - value)
      if value < 0 then some "-9223372036854775808".toList
      else do put '-' (← putDigits 10 64 value [])
    else putDigits 10 64 value []

/-! What a text denotes -/

/-- A base, the digits to it, and the digits of a numeral. -/
structure Scheme where
  base : Int
  isDigit : Char → Bool
  digits : List Char

/-- Decimal, unless it begins with `0x` or `0X`, or with a zero before an octal digit. -/
def scheme : List Char → Scheme
  | '0' :: c :: rest =>
    if c = 'x' ∨ c = 'X' then ⟨16, isxdigit, rest⟩
    else if isodigit c then ⟨8, isodigit, c :: rest⟩
    else ⟨10, isdigit, '0' :: c :: rest⟩
  | numeral => ⟨10, isdigit, numeral⟩

/-- The number that the digits stand for. -/
def number (base : Int) (digits : List Char) : Int := digits.foldl (fun acc c => base * acc + digitValue c) 0

def Scheme.number (scheme : Scheme) : Int := Integer.number scheme.base scheme.digits

def Scheme.AllDigits (scheme : Scheme) : Prop := ∀ c ∈ scheme.digits, scheme.isDigit c = true

/-- In 64 bits the number does not get less from one digit to the next. -/
def Scheme.NeverDrops (scheme : Scheme) : Prop := ∀ k < scheme.digits.length,
  wrap (Integer.number scheme.base (scheme.digits.take k)) ≤ wrap (Integer.number scheme.base (scheme.digits.take (k + 1)))

instance (scheme : Scheme) : Decidable scheme.AllDigits :=
  inferInstanceAs (Decidable (∀ c ∈ scheme.digits, scheme.isDigit c = true))

instance (scheme : Scheme) : Decidable scheme.NeverDrops := inferInstanceAs (Decidable (∀ k < scheme.digits.length,
  wrap (Integer.number scheme.base (scheme.digits.take k)) ≤ wrap (Integer.number scheme.base (scheme.digits.take (k + 1)))))

/-- What the code takes for a number. -/
def Scheme.Accepted (scheme : Scheme) : Prop :=
  scheme.AllDigits ∧ scheme.NeverDrops ∧ (scheme.base = 16 → scheme.digits ≠ [])

instance (scheme : Scheme) : Decidable scheme.Accepted := inferInstanceAs (Decidable
  (scheme.AllDigits ∧ scheme.NeverDrops ∧ (scheme.base = 16 → scheme.digits ≠ [])))

/-- White space, a sign, and a numeral of at least one digit, for a value of 64 bits. -/
def Denotes (s : List Char) (v : Int) : Prop :=
  ∃ blanks sign numeral, s = blanks ++ (sign ++ numeral) ∧ (∀ c ∈ blanks, isspace c = true) ∧
    (sign = [] ∨ sign = ['+'] ∨ sign = ['-']) ∧ (scheme numeral).digits ≠ [] ∧ (scheme numeral).AllDigits ∧
    v = (if sign = ['-'] then -(scheme numeral).number else (scheme numeral).number) ∧ -2 ^ 63 ≤ v ∧ v < 2 ^ 63

/-- No terminator inside, one sign at most, and a digit. -/
def Formed (s : List Char) : Prop :=
  '\x00' ∉ s ∧ ¬ ((read s).seenPlus = true ∧ (read s).seenMinus = true) ∧ (scheme (read s).ptr).digits ≠ []

/-- What follows the signs is refused for a character that is no digit; or the text is well formed, and its number is
below `2 ^ 63` or is found to be too large, and not `-2 ^ 63`; or it is not, but is refused for other reasons. -/
def Recognized (s : List Char) : Prop :=
  let numeral := scheme (read s).ptr
  numeral.AllDigits →
    (Formed s ∧ (numeral.number < 2 ^ 63 ∨
      ¬ numeral.NeverDrops ∧ ¬ ((read s).seenMinus = true ∧ numeral.number = 2 ^ 63))) ∨
    (¬ Formed s ∧ (numeral.base = 16 ∧ numeral.digits = [] ∨ ¬ numeral.NeverDrops))

end Integer
end Ecos.Cdl
