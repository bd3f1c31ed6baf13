import PackedMovie.Json.Value
import PackedMovie.Text.Numeral

/-!
# Reading JSON text

The grammar of RFC 8259. Nothing but blanks may follow the value.
-/
namespace PackedMovie.Json

def isBlank (c : Char) : Bool := c = ' ' || c = '\t' || c = '\n' || c = '\r'

def skipBlanks (cs : List Char) : List Char := cs.dropWhile isBlank

/-- A character escaped by one letter. -/
def letterEscape? (c : Char) : Option Char :=
  [('"', '"'), ('\\', '\\'), ('/', '/'), ('b', '\x08'), ('f', '\x0c'), ('n', '\n'), ('r', '\r'),
    ('t', '\t')].lookup c

def isLeadSurrogate (n : Nat) : Bool := 0xD800 ≤ n && n < 0xDC00

def isTailSurrogate (n : Nat) : Bool := 0xDC00 ≤ n && n < 0xE000

/-- The rest of a string up to its closing quote; `done` is what came before it, in reverse. -/
def stringTail (done : List Char) : List Char → Option (String × List Char)
  | [] => none
  | '"' :: rest => some (String.ofList done.reverse, rest)
  | '\\' :: 'u' :: a :: b :: c :: d :: '\\' :: 'u' :: e :: f :: g :: h :: rest =>
    match Numeral.value? 16 [a, b, c, d], Numeral.value? 16 [e, f, g, h] with
    | some first, some second =>
      if isLeadSurrogate first && isTailSurrogate second then
        let code := 0x10000 + (first - 0xD800) * 1024 + (second - 0xDC00)
        stringTail (Char.ofNat code :: done) rest
      else if isLeadSurrogate first || isTailSurrogate first then none
      else stringTail (Char.ofNat first :: done) ('\\' :: 'u' :: e :: f :: g :: h :: rest)
    | _, _ => none
  | '\\' :: 'u' :: a :: b :: c :: d :: rest =>
    match Numeral.value? 16 [a, b, c, d] with
    | some n =>
      if isLeadSurrogate n || isTailSurrogate n then none
      else stringTail (Char.ofNat n :: done) rest
    | none => none
  | '\\' :: c :: rest =>
    match letterEscape? c with
    | some escaped => stringTail (escaped :: done) rest
    | none => none
  | c :: rest => if c < ' ' ∨ c = '\\' then none else stringTail (c :: done) rest

/-- A number literal: an optional sign, digits without a leading zero, then perhaps a fraction and an
exponent. -/
def number (cs : List Char) : Option (Json × List Char) :=
  let (sign, unsigned) := match cs with
    | '-' :: rest => (['-'], rest)
    | _ => ([], cs)
  let (digits, afterDigits) := unsigned.span Char.isDigit
  if digits.isEmpty || (digits.head? == some '0' && digits.length > 1) then none
  else
    let fraction? := match afterDigits with
      | '.' :: rest =>
        let (places, after) := rest.span Char.isDigit
        if places.isEmpty then none else some ('.' :: places, after)
      | _ => some ([], afterDigits)
    fraction?.bind fun (fraction, afterFraction) =>
      let exponent? := match afterFraction with
        | c :: rest =>
          if c = 'e' ∨ c = 'E' then
            let (mark, unsignedExponent) := match rest with
              | s :: more => if s = '+' ∨ s = '-' then ([c, s], more) else ([c], rest)
              | [] => ([c], [])
            let (power, after) := unsignedExponent.span Char.isDigit
            if power.isEmpty then none else some (mark ++ power, after)
          else some ([], afterFraction)
        | [] => some ([], [])
      exponent?.map fun (exponent, after) =>
        let magnitude := digits.foldl (fun n c => n * 10 + (c.toNat - '0'.toNat)) 0
        let literal := String.ofList (sign ++ digits ++ fraction ++ exponent)
        if fraction.isEmpty && exponent.isEmpty && (sign.isEmpty || magnitude > 0) then
          (.integer (if sign.isEmpty then magnitude else -magnitude), after)
        else (.decimal literal, after)

mutual

/-- A value of bounded depth. Every two levels take at least one character. -/
def value : Nat → List Char → Option (Json × List Char)
  | 0, _ => none
  | depth + 1, cs =>
    match skipBlanks cs with
    | 'n' :: 'u' :: 'l' :: 'l' :: rest => some (.null, rest)
    | 't' :: 'r' :: 'u' :: 'e' :: rest => some (.bool true, rest)
    | 'f' :: 'a' :: 'l' :: 's' :: 'e' :: rest => some (.bool false, rest)
    | '"' :: rest => (stringTail [] rest).map fun (text, after) => (.string text, after)
    | '[' :: rest =>
      match skipBlanks rest with
      | ']' :: after => some (.array [], after)
      | _ => (members depth rest).map fun (js, after) => (.array js, after)
    | '\x7b' :: rest =>
      match skipBlanks rest with
      | '\x7d' :: after => some (.object [], after)
      | _ => (fields depth rest).map fun (js, after) => (.object js, after)
    | other => number other

def members : Nat → List Char → Option (List Json × List Char)
  | 0, _ => none
  | depth + 1, cs => do
    let (head, afterHead) ← value depth cs
    match skipBlanks afterHead with
    | ',' :: rest =>
      let (tail, after) ← members depth rest
      pure (head :: tail, after)
    | ']' :: after => pure ([head], after)
    | _ => none

def fields : Nat → List Char → Option (List (String × Json) × List Char)
  | 0, _ => none
  | depth + 1, cs =>
    match skipBlanks cs with
    | '"' :: rest => do
      let (name, afterName) ← stringTail [] rest
      match skipBlanks afterName with
      | ':' :: afterColon =>
        let (head, afterHead) ← value depth afterColon
        match skipBlanks afterHead with
        | ',' :: more =>
          let (tail, after) ← fields depth more
          pure ((name, head) :: tail, after)
        | '\x7d' :: after => pure ([(name, head)], after)
        | _ => none
      | _ => none
    | _ => none

end

def parse? (text : String) : Option Json :=
  let cs := text.toList
  match value (2 * cs.length + 2) cs with
  | some (j, rest) => if (skipBlanks rest).isEmpty then some j else none
  | none => none

end PackedMovie.Json
