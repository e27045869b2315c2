/-
The secret scrubber of the acting path
(`orchestration/engine_adapters/secrets.py`), and the executor's host that
scrubs with it.

Sources are what they yield when they are read; one that raises is `none`,
and what is yielded besides strings is left out. In which order a set is
gone through is not known.
-/
import Velune.Core.Redaction
import Velune.Engine.ToolExec
import Velune.Lib.JsonText

namespace Velune.Engine

open Lib
open Core

-- ===== spellings

/-- What `quote` keeps whatever is asked. -/
def isAlwaysSafe (b : UInt8) : Bool :=
  let c := Char.ofNat b.toNat
  Text.isAlnum c || c == '_' || c == '.' || c == '-' || c == '~'

def hexUpper (n : Nat) : Char := (Nat.digitChar n).toUpper

def quoteByte (b : UInt8) : PyStr :=
  if isAlwaysSafe b then [Char.ofNat b.toNat]
  else ['%', hexUpper (b.toNat / 16), hexUpper (b.toNat % 16)]

/-- `quote(value, safe="")`, of a text that encodes. -/
def quote (text : PyStr) : PyStr := (Utf8.encode text).flatMap quoteByte

/-- `json.dumps(value)[1:-1]`. -/
def jsonInner (text : PyStr) : PyStr :=
  ((JsonText.writeString (JsonText.ofText text)).drop 1).dropLast

def spellings (text : PyStr) : List RawStr :=
  [PyStr.raw text, PyStr.raw (jsonInner text), PyStr.raw (quote text)]

-- ===== scrubbing

def MIN_SECRET_CHARS : Nat := 8

structure SecretScrubber where
  sources : List (Option (List RawStr))
  strict : Bool := false

/-- What the scrubbing process has: the variables that are set, the table of
word characters, and an order for every set. -/
structure Surroundings where
  env : PyStr → Option RawStr
  isWord : Char → Bool
  listed : List RawStr → List RawStr
  mem_listed : ∀ found s, s ∈ listed found ↔ s ∈ found
  nodup_listed : ∀ found, (listed found).Nodup

/-- What one value adds; `quote` raises where a value does not encode. -/
def spelled (value : RawStr) : Option (List RawStr) :=
  if value.strip.length < MIN_SECRET_CHARS then some []
  else (RawStr.clean? value.strip).map spellings

/-- A source that cannot be read is passed over, or stops a strict scrubber. -/
def readSource (strict : Bool) : Option (List RawStr) → Option (List RawStr)
  | some values => (values.mapM spelled).map List.flatten
  | none => if strict then none else some []

def SecretScrubber.found (scrubber : SecretScrubber) : Option (List RawStr) :=
  (scrubber.sources.mapM (readSource scrubber.strict)).map List.flatten

/-- `_values`: the longest first. -/
def Surroundings.values (u : Surroundings) (scrubber : SecretScrubber) : Option (List RawStr) :=
  scrubber.found.map fun found =>
    (u.listed found).mergeSort fun a b => decide (b.length ≤ a.length)

/-- `scrub`; `none` where it raises. -/
def Surroundings.scrub (u : Surroundings) (scrubber : SecretScrubber) (text : RawStr) :
    Option RawStr :=
  if text = [] then some text
  else
    (u.values scrubber).map fun values =>
      redactSecrets u.isWord u.env (values.foldl redactValue text)

def Surroundings.host (u : Surroundings) (scrubber : SecretScrubber) (h : Host) : Host :=
  { h with
    redact := redactSecrets u.isWord u.env
    scrub := some (u.scrub scrubber) }

end Velune.Engine
