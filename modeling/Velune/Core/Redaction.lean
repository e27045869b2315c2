/-
`redact_secrets` (`core/redaction.py`): the values of known environment
variables, then the shapes of known keys, each replaced by one placeholder.

A lone surrogate is matched as U+FFFD, which like it is of no class here.
What follows a capture is left out: nothing reads it.
-/
import Velune.Domain
import Velune.Lib.RegexSub

namespace Velune.Core

open Lib
open Lib.Regex (Re)

def REDACTION_PLACEHOLDER : RawStr := PyStr.raw "***REDACTED***".toList

-- ===== patterns

/-- `[A-Za-z0-9]`. -/
def isKeyChar (c : Char) : Bool := Text.isAlnum c

/-- `[A-Za-z0-9_-]`. -/
def isDashedKeyChar (c : Char) : Bool := Text.isAlnum c || c == '_' || c == '-'

/-- What `(?i)[A-Za-z]` has besides the letters it names. -/
def CASE_TWINS : List Char := ['\u0130', '\u0131', '\u017F', '\u212A']

/-- `(?i)[A-Za-z0-9._~+/=-]`. -/
def isTokenChar (c : Char) : Bool :=
  Text.isAlnum c || "._~+/=-".toList.contains c || CASE_TWINS.contains c

def noCase (c d : Char) : Bool := d == c || d == c.toUpper || (c == 'k' && d == '\u212A')

def wordNoCase (word : List Char) : Re := .cat (word.map fun c => .cls (noCase c))

def keyShape (lead : List Char) (body : Char → Bool) : Re :=
  .seq (.text lead) (.atLeast 20 body)

/-- `(?i)\b(bearer|token)\s+[A-Za-z0-9._~+/=-]{16,}`. -/
def AUTHORIZATION : Re :=
  .seq (.seq .wordEdge
      (.seq (.alt (wordNoCase "bearer".toList) (wordNoCase "token".toList)) (.plus Text.isSpace)))
    (.atLeast 16 isTokenChar)

/-- The key shapes of `_SECRET_PATTERNS`; the last pattern is the
authorization header. -/
def KEY_SHAPES : List (List Char × (Char → Bool)) :=
  [("sk-ant-".toList, isDashedKeyChar), ("sk-proj-".toList, isDashedKeyChar),
    ("sk-".toList, isDashedKeyChar), ("xai-".toList, isKeyChar), ("gsk_".toList, isKeyChar),
    ("hf_".toList, isKeyChar), ("AIza".toList, isDashedKeyChar), ("r8_".toList, isKeyChar),
    ("fw_".toList, isKeyChar), ("sk-or-".toList, isDashedKeyChar)]

def SECRET_PATTERNS : List Re :=
  KEY_SHAPES.map (fun shape => keyShape shape.1 shape.2) ++ [AUTHORIZATION]

def SECRET_ENV_VARS : List PyStr :=
  ["ANTHROPIC_API_KEY".toList, "OPENAI_API_KEY".toList, "XAI_API_KEY".toList,
    "GOOGLE_API_KEY".toList, "GROQ_API_KEY".toList, "OPENROUTER_API_KEY".toList,
    "HF_TOKEN".toList, "TOGETHER_API_KEY".toList, "FIREWORKS_API_KEY".toList]

-- ===== replacing

def shownChar (c : Option Char) : Char := c.getD '\uFFFD'

/-- `text.replace(value, REDACTION_PLACEHOLDER)`, where it is there. -/
def redactValue (text value : RawStr) : RawStr :=
  if value <:+: text then Replace.replaceAll (Replace.literal value) REDACTION_PLACEHOLDER text
  else text

def redactVariable (env : PyStr → Option RawStr) (text : RawStr) (var : PyStr) : RawStr :=
  match env var with
  | some value => if 8 ≤ value.length then redactValue text value else text
  | none => text

def redactPattern (isWord : Char → Bool) (text : RawStr) (pattern : Re) : RawStr :=
  Regex.sub isWord shownChar pattern REDACTION_PLACEHOLDER text

def redactSecrets (isWord : Char → Bool) (env : PyStr → Option RawStr) (text : RawStr) : RawStr :=
  if text = [] then text
  else SECRET_PATTERNS.foldl (redactPattern isWord) (SECRET_ENV_VARS.foldl (redactVariable env) text)

end Velune.Core
