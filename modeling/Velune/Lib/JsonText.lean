/-
JSON as text: what an encoder writes that escapes all but printable ASCII,
and what a decoder reads back, the way Python's `json` does both.

A string is a list of code points, and half of a surrogate pair is one. The
decoder joins two halves that stand next to each other, which is the only
thing a round trip may change in a string. A decoder nests as deep as it is
let; behind that it fails as a recursion, not as a value.
-/
import Velune.Lib.Assoc
import Velune.Lib.Text

namespace Lib.JsonText

-- ===== values

inductive CodePoint
  | char (c : Char)
  | high (n : Fin 1024)
  | low (n : Fin 1024)
  deriving DecidableEq, Repr

abbrev Str := List CodePoint

def ofText (s : List Char) : Str := s.map .char

/-- A JSON value. A number with a fraction or an exponent is its literal. -/
inductive Value
  | null
  | bool (b : Bool)
  | int (n : Int)
  | float (literal : List Char)
  | str (s : Str)
  | list (items : List Value)
  | dict (entries : List (Str × Value))

-- ===== strings

def hex4 (n : Nat) : List Char :=
  [Nat.digitChar (n / 4096 % 16), Nat.digitChar (n / 256 % 16), Nat.digitChar (n / 16 % 16),
    Nat.digitChar (n % 16)]

def unicodeEscape (n : Nat) : List Char := '\\' :: 'u' :: hex4 n

def shortEscape (c : Char) : Option Char :=
  if c = '"' then some '"'
  else if c = '\\' then some '\\'
  else if c = '\n' then some 'n'
  else if c = '\r' then some 'r'
  else if c = '\t' then some 't'
  else if c = Char.ofNat 12 then some 'f'
  else if c = Char.ofNat 8 then some 'b'
  else none

/-- One unit of a string: all code points but those of two units. -/
def writeUnit : CodePoint → List Char
  | .char c =>
      match shortEscape c with
      | some e => ['\\', e]
      | none => if 32 ≤ c.toNat ∧ c.toNat ≤ 126 then [c] else unicodeEscape c.toNat
  | .high n => unicodeEscape (0xD800 + n)
  | .low n => unicodeEscape (0xDC00 + n)

def units : CodePoint → List CodePoint
  | .char c =>
      if c.toNat < 0x10000 then [.char c]
      else [.high (Fin.ofNat 1024 ((c.toNat - 0x10000) / 1024)),
        .low (Fin.ofNat 1024 ((c.toNat - 0x10000) % 1024))]
  | p => [p]

def writeString (s : Str) : List Char :=
  '"' :: ((s.flatMap units).flatMap writeUnit ++ ['"'])

def hexValue (c : Char) : Option Nat :=
  let n := c.toNat
  if 48 ≤ n ∧ n ≤ 57 then some (n - 48)
  else if 97 ≤ n ∧ n ≤ 102 then some (n - 87)
  else if 65 ≤ n ∧ n ≤ 70 then some (n - 55)
  else none

def readHex4 : List Char → Option (Nat × List Char)
  | a :: b :: c :: d :: rest => do
      let a ← hexValue a
      let b ← hexValue b
      let c ← hexValue c
      let d ← hexValue d
      pure (4096 * a + 256 * b + 16 * c + d, rest)
  | _ => none

def ofCode (n : Nat) : CodePoint :=
  if 0xD800 ≤ n ∧ n < 0xDC00 then .high (Fin.ofNat 1024 (n - 0xD800))
  else if 0xDC00 ≤ n ∧ n < 0xE000 then .low (Fin.ofNat 1024 (n - 0xDC00))
  else .char (Char.ofNat n)

def unescape (c : Char) : Option Char :=
  if c = '"' then some '"'
  else if c = '\\' then some '\\'
  else if c = '/' then some '/'
  else if c = 'b' then some (Char.ofNat 8)
  else if c = 'f' then some (Char.ofNat 12)
  else if c = 'n' then some '\n'
  else if c = 'r' then some '\r'
  else if c = 't' then some '\t'
  else none

def readUnit : List Char → Option (CodePoint × List Char)
  | [] => none
  | c :: rest =>
      if c = '\\' then
        match rest with
        | [] => none
        | e :: rest =>
            if e = 'u' then (readHex4 rest).map fun r => (ofCode r.1, r.2)
            else (unescape e).map fun d => (.char d, rest)
      else if c.toNat < 32 then none
      else some (.char c, rest)

/-- Units up to the closing quote. Each takes a character at least: the
length of the text is fuel enough. -/
def readUnits : Nat → List Char → Option (Str × List Char)
  | 0, _ => none
  | fuel + 1, s =>
      if s.head? = some '"' then some ([], s.drop 1)
      else do
        let (u, s) ← readUnit s
        let (us, s) ← readUnits fuel s
        pure (u :: us, s)

def joinPairs : Str → Str
  | .high a :: .low b :: rest =>
      .char (Char.ofNat (0x10000 + 1024 * a + b)) :: joinPairs rest
  | p :: rest => p :: joinPairs rest
  | [] => []

def readString (s : List Char) : Option (Str × List Char) :=
  (readUnits s.length s).map fun r => (joinPairs r.1, r.2)

-- ===== writing

/-- The white space an encoder puts in: in front of what stands `depth`
levels deep, and behind a colon. -/
structure Style where
  gap : Nat → List Char
  colon : List Char

/-- `separators=(",", ":")`. -/
def compact : Style := ⟨fun _ => [], []⟩

/-- `indent=n`. -/
def indented (n : Nat) : Style := ⟨fun depth => '\n' :: List.replicate (n * depth) ' ', [' ']⟩

def writeInt (n : Int) : List Char :=
  if n < 0 then '-' :: Nat.toDigits 10 n.natAbs else Nat.toDigits 10 n.natAbs

section Write

variable (style : Style)

mutual

/-- A value as it is written `depth` levels deep. -/
def write (depth : Nat) : Value → List Char
  | .null => "null".toList
  | .bool b => if b then "true".toList else "false".toList
  | .int n => writeInt n
  | .float literal => literal
  | .str s => writeString s
  | .list [] => ['[', ']']
  | .list (x :: xs) =>
      '[' :: (style.gap (depth + 1) ++ (write (depth + 1) x ++ (writeItems (depth + 1) xs
        ++ (style.gap depth ++ [']']))))
  | .dict [] => ['{', '}']
  | .dict ((k, v) :: es) =>
      '{' :: (style.gap (depth + 1) ++ (writeString k ++ (':' :: (style.colon
        ++ (write (depth + 1) v ++ (writeEntries (depth + 1) es
          ++ (style.gap depth ++ ['}'])))))))

def writeItems (depth : Nat) : List Value → List Char
  | [] => []
  | x :: xs => ',' :: (style.gap depth ++ (write depth x ++ writeItems depth xs))

def writeEntries (depth : Nat) : List (Str × Value) → List Char
  | [] => []
  | (k, v) :: es =>
      ',' :: (style.gap depth ++ (writeString k ++ (':' :: (style.colon
        ++ (write depth v ++ writeEntries depth es)))))

end

end Write

-- ===== reading

inductive LoadError
  /-- A `ValueError`. -/
  | value
  /-- A `RecursionError`. -/
  | recursion
  deriving DecidableEq, Repr

def isWhite (c : Char) : Bool := c == ' ' || c == '\t' || c == '\n' || c == '\r'

def skip (s : List Char) : List Char := s.dropWhile isWhite

def natural (s : List Char) : Option (List Char × List Char) :=
  if s.head? = some '0' then some (['0'], s.drop 1)
  else
    let ds := s.takeWhile Text.isDigit
    if ds = [] then none else some (ds, s.dropWhile Text.isDigit)

def digitsBehind (mark s rest : List Char) : List Char × List Char :=
  let ds := rest.takeWhile Text.isDigit
  if ds = [] then ([], s) else (mark ++ ds, rest.dropWhile Text.isDigit)

def fraction (s : List Char) : List Char × List Char :=
  match s with
  | '.' :: rest => digitsBehind ['.'] s rest
  | _ => ([], s)

def exponent (s : List Char) : List Char × List Char :=
  match s with
  | e :: rest =>
      if e = 'e' ∨ e = 'E' then
        match rest with
        | c :: rest' =>
            if c = '+' ∨ c = '-' then digitsBehind [e, c] s rest' else digitsBehind [e] s rest
        | [] => ([], s)
      else ([], s)
  | [] => ([], s)

/-- `sys.get_int_max_str_digits()`. -/
def MAX_STR_DIGITS : Nat := 4300

def readDigits (negative : Bool) (s : List Char) : Except LoadError (Value × List Char) :=
  match natural s with
  | none => .error .value
  | some (ds, s) =>
      let (frac, s) := fraction s
      let (exp, s) := exponent s
      if frac = [] ∧ exp = [] then
        if MAX_STR_DIGITS < ds.length then .error .value
        else
          let n : Int := Nat.ofDigitChars 10 ds 0
          .ok (.int (if negative then -n else n), s)
      else .ok (.float ((if negative then ['-'] else []) ++ (ds ++ (frac ++ exp))), s)

def readNumber (s : List Char) : Except LoadError (Value × List Char) :=
  if s.head? = some '-' then readDigits true (s.drop 1) else readDigits false s

def readPlain (s : List Char) : Except LoadError (Value × List Char) :=
  if "null".toList <+: s then .ok (.null, s.drop 4)
  else if "true".toList <+: s then .ok (.bool true, s.drop 4)
  else if "false".toList <+: s then .ok (.bool false, s.drop 5)
  else if "NaN".toList <+: s then .ok (.float "NaN".toList, s.drop 3)
  else if "Infinity".toList <+: s then .ok (.float "Infinity".toList, s.drop 8)
  else if "-Infinity".toList <+: s then .ok (.float "-Infinity".toList, s.drop 9)
  else readNumber s

section Read

-- how a value inside is read
variable (value : List Char → Except LoadError (Value × List Char))

/-- Items up to the closing bracket; the length of the text is fuel enough. -/
def readItems : Nat → List Char → Except LoadError (List Value × List Char)
  | 0, _ => .error .value
  | fuel + 1, s =>
      match value s with
      | .error e => .error e
      | .ok (v, s) =>
          match skip s with
          | ']' :: s => .ok ([v], s)
          | ',' :: s => (readItems fuel (skip s)).map fun r => (v :: r.1, r.2)
          | _ => .error .value

def readArray (s : List Char) : Except LoadError (Value × List Char) :=
  match skip s with
  | ']' :: s => .ok (.list [], s)
  | s => (readItems value s.length s).map fun r => (.list r.1, r.2)

def readAfterKey (k : Str) (s : List Char) : Except LoadError ((Str × Value) × List Char) :=
  match skip s with
  | ':' :: s => (value (skip s)).map fun r => ((k, r.1), r.2)
  | _ => .error .value

def readEntry (s : List Char) : Except LoadError ((Str × Value) × List Char) :=
  match s with
  | '"' :: s =>
      match readString s with
      | none => .error .value
      | some r => readAfterKey value r.1 r.2
  | _ => .error .value

def readEntries : Nat → List Char → Except LoadError (List (Str × Value) × List Char)
  | 0, _ => .error .value
  | fuel + 1, s =>
      match readEntry value s with
      | .error e => .error e
      | .ok (e, s) =>
          match skip s with
          | '}' :: s => .ok ([e], s)
          | ',' :: s => (readEntries fuel (skip s)).map fun r => (e :: r.1, r.2)
          | _ => .error .value

/-- The entries as a dictionary: a later one takes the place of an earlier. -/
def asDict (entries : List (Str × Value)) : List (Str × Value) :=
  entries.foldl (fun (d : Assoc Str Value) e => d.set e.1 e.2) []

def readObject (s : List Char) : Except LoadError (Value × List Char) :=
  match skip s with
  | '}' :: s => .ok (.dict [], s)
  | s => (readEntries value s.length s).map fun r => (.dict (asDict r.1), r.2)

end Read

/-- One value, with containers at most `limit` levels deep. -/
def scanOnce : Nat → List Char → Except LoadError (Value × List Char)
  | limit, s =>
      match s with
      | '"' :: rest =>
          match readString rest with
          | none => .error .value
          | some (t, rest) => .ok (.str t, rest)
      | '[' :: rest =>
          match limit with
          | 0 => .error .recursion
          | n + 1 => readArray (scanOnce n) rest
      | '{' :: rest =>
          match limit with
          | 0 => .error .recursion
          | n + 1 => readObject (scanOnce n) rest
      | _ => readPlain s

/-- `json.loads`, of a text without surrogates. -/
def loads (limit : Nat) (s : List Char) : Except LoadError Value :=
  if s.head? = some (Char.ofNat 0xFEFF) then .error .value
  else
    match scanOnce limit (skip s) with
    | .error e => .error e
    | .ok (v, rest) => if skip rest = [] then .ok v else .error .value

end Lib.JsonText
