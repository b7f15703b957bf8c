import LiveItems.Toml.Character
set_option autoImplicit false

namespace LiveItems.Toml

inductive Scalar where
  | string (text : String)
  | integer (n : Int)
  | float (literal : String)
  | boolean (b : Bool)
  | datetime (literal : String)
  deriving Repr, DecidableEq

/-- The digits of a number without the underscores, each of which stands between two digits. -/
def ungroup (isDigit : Char → Bool) : List Char → Option (List Char)
  | [] => none
  | [c] => if isDigit c then some [c] else none
  | c :: '_' :: rest => if isDigit c then (ungroup isDigit rest).map (c :: ·) else none
  | c :: rest => if isDigit c then (ungroup isDigit rest).map (c :: ·) else none

def wholeDigits? (cs : List Char) : Option (List Char) := do
  let ds ← ungroup Char.isDigit cs
  match ds with
  | '0' :: _ :: _ => none
  | ds => some ds

def splitSign : List Char → Bool × List Char
  | '+' :: rest => (false, rest)
  | '-' :: rest => (true, rest)
  | rest => (false, rest)

def word? (n : Int) : Option Int := if -Int.pow 2 63 ≤ n ∧ n < Int.pow 2 63 then some n else none

def isDigitOf (base : Nat) (c : Char) : Bool := (hexDigit? c).any (· < base)

def basedInteger? (base : Nat) (cs : List Char) : Option Int := do
  let ds ← ungroup (isDigitOf base) cs
  word? (ofDigits base ds)

def decimalInteger? (cs : List Char) : Option Int := do
  let (negative, cs) := splitSign cs
  let n := ofDigits 10 (← wholeDigits? cs)
  word? (if negative then -(n : Int) else n)

/-- Hexadecimal, octal and binary integers have no sign. -/
def integer? : List Char → Option Int
  | '0' :: 'x' :: cs => basedInteger? 16 cs
  | '0' :: 'o' :: cs => basedInteger? 8 cs
  | '0' :: 'b' :: cs => basedInteger? 2 cs
  | cs => decimalInteger? cs

/-- `m * 10 ^ e` rounds to infinity as a binary float of 64 bits, where the digits write `m`: it is
not below the middle between the largest finite number and the next power of two. Far from that
bound the number of digits decides. -/
def roundsToInfinity (ds : List Char) (e : Int) : Bool :=
  let ds := ds.dropWhile (· == '0')
  let size := ds.length + e
  if ds.isEmpty ∨ size < 309 then false
  else if size > 309 then true
  else
    let m := ofDigits 10 ds
    m * Nat.pow 10 e.toNat ≥ (Nat.pow 2 1024 - Nat.pow 2 970) * Nat.pow 10 (-e).toNat

def exponent? : List Char → Option Int
  | [] => some 0
  | _ :: cs => do
    let (negative, cs) := splitSign cs
    let n := ofDigits 10 (← ungroup Char.isDigit cs)
    some (if negative then -(n : Int) else n)

def isExponentMark (c : Char) : Bool := c == 'e' || c == 'E'

def isFloat (cs : List Char) : Bool :=
  let (negative, cs) := splitSign cs
  if cs = "inf".toList ∨ cs = "nan".toList then true
  else
    let mantissa := cs.takeWhile (!isExponentMark ·)
    let power := cs.dropWhile (!isExponentMark ·)
    let whole := mantissa.takeWhile (· != '.')
    let fraction := mantissa.dropWhile (· != '.')
    if fraction.isEmpty && power.isEmpty then false
    else
      match wholeDigits? whole,
        (if fraction.isEmpty then some [] else ungroup Char.isDigit fraction.tail),
        exponent? power with
      | some ws, some fs, some e => negative || !roundsToInfinity (ws ++ fs) (e - fs.length)
      | _, _, _ => false

def daysIn (year month : Nat) : Nat :=
  if month = 2 then
    if year % 4 = 0 ∧ (year % 100 ≠ 0 ∨ year % 400 = 0) then 29 else 28
  else if month = 4 ∨ month = 6 ∨ month = 9 ∨ month = 11 then 30
  else 31

def afterDate? : List Char → Option (List Char)
  | y₁ :: y₂ :: y₃ :: y₄ :: '-' :: m₁ :: m₂ :: '-' :: d₁ :: d₂ :: rest =>
    let year := ofDigits 10 [y₁, y₂, y₃, y₄]
    let month := ofDigits 10 [m₁, m₂]
    let day := ofDigits 10 [d₁, d₂]
    if [y₁, y₂, y₃, y₄, m₁, m₂, d₁, d₂].all Char.isDigit ∧ 1 ≤ month ∧ month ≤ 12 ∧ 1 ≤ day
        ∧ day ≤ daysIn year month then
      some rest
    else none
  | _ => none

def afterTime? : List Char → Option (List Char)
  | h₁ :: h₂ :: ':' :: m₁ :: m₂ :: ':' :: s₁ :: s₂ :: rest =>
    if [h₁, h₂, m₁, m₂, s₁, s₂].all Char.isDigit ∧ ofDigits 10 [h₁, h₂] ≤ 23
        ∧ ofDigits 10 [m₁, m₂] ≤ 59 ∧ ofDigits 10 [s₁, s₂] ≤ 60 then
      match rest with
      | '.' :: d :: rest => if d.isDigit then some (rest.dropWhile Char.isDigit) else none
      | rest => some rest
    else none
  | _ => none

def isOffset : List Char → Bool
  | ['Z'] => true
  | ['z'] => true
  | [sign, h₁, h₂, ':', m₁, m₂] =>
    (sign == '+' || sign == '-') && [h₁, h₂, m₁, m₂].all Char.isDigit
      && ofDigits 10 [h₁, h₂] ≤ 23 && ofDigits 10 [m₁, m₂] ≤ 59
  | _ => false

def isDate (cs : List Char) : Bool := afterDate? cs == some []

def isTime (cs : List Char) : Bool := afterTime? cs == some []

def isOffsetTime (cs : List Char) : Bool :=
  match afterTime? cs with
  | some rest => rest.isEmpty || isOffset rest
  | none => false

def isDateTime (cs : List Char) : Bool :=
  match afterDate? cs with
  | some (c :: rest) => (c == 'T' || c == 't') && isOffsetTime rest
  | _ => false

def Scalar.ofToken? (cs : List Char) : Option Scalar :=
  if cs = "true".toList then some (.boolean true)
  else if cs = "false".toList then some (.boolean false)
  else if isTime cs ∨ isDateTime cs then some (.datetime (String.ofList cs))
  else
    match integer? cs with
    | some n => some (.integer n)
    | none => if isFloat cs then some (.float (String.ofList cs)) else none

def readToken : Reader Scalar := fun cs =>
  let token := cs.takeWhile isToken
  let rest := cs.dropWhile isToken
  if isDate token then
    match rest with
    | ' ' :: more =>
      let time := more.takeWhile isToken
      if isOffsetTime time then
        some (.datetime (String.ofList (token ++ ' ' :: time)), more.dropWhile isToken)
      else
        some (.datetime (String.ofList token), rest)
    | _ => some (.datetime (String.ofList token), rest)
  else
    (Scalar.ofToken? token).map (·, rest)

end LiveItems.Toml
