/-
What a sandbox refuses to run (`CommandSpec.validate_command`,
`execution/command_spec.py`): programs that are not allowed, and program
text on an interpreter's command line. Beside it, the interpreters' own
command lines.

Of the text for a program that is not allowed only the program is kept.
The options of node that take no program text are a parameter; a word it
does not know ends them, as do those that make an interpreter print
something and stop.
-/
import Velune.Commands.Safety
import Velune.Lib.Options

namespace Velune.Commands

open Lib Lib.Options

-- ===== the check

def ALLOWED_EXECUTABLES : List PyStr :=
  ["python".toList, "python3".toList, "pytest".toList, "ruff".toList, "mypy".toList, "git".toList,
    "node".toList, "npm".toList, "cargo".toList, "go".toList, "make".toList, "cmake".toList,
    "gcc".toList, "clang".toList, "echo".toList, "cat".toList, "ls".toList, "find".toList,
    "grep".toList]

/-- The flags of `_INTERPRETER_INLINE_FLAGS` that node takes. -/
def nodeInlineFlags : List PyStr :=
  ["-e".toList, "--eval".toList, "-p".toList, "--print".toList, "--eval-stdin".toList]

def INTERPRETER_INLINE_FLAGS : List (PyStr × List PyStr) :=
  [("python".toList, ["-c".toList]), ("python3".toList, ["-c".toList]),
    ("node".toList, nodeInlineFlags), ("nodejs".toList, nodeInlineFlags)]

/-- `Path(executable).name.lower()`. -/
def programName (executable : PyStr) : PyStr := lower (PurePath.parse executable).name

/-- `-c`, or a cluster of short flags with a `c` in it. -/
def isCluster : PyStr → Bool
  | '-' :: c :: rest => c != '-' && (c :: rest).contains 'c'
  | _ => false

def findInlineCodeFlag (executable : PyStr) (args : List PyStr) : Option PyStr :=
  if programName executable = "python".toList ∨ programName executable = "python3".toList then
    args.find? isCluster
  else
    match INTERPRETER_INLINE_FLAGS.lookup (programName executable) with
    | some blocked => args.find? fun arg => blocked.contains arg
    | none => none

inductive SandboxError
  | notAllowed (executable : PyStr)
  | inlineFlag (flag executable : PyStr)
  deriving DecidableEq, Repr

def SandboxError.text : SandboxError → PyStr
  | .notAllowed executable =>
      "Executable '".toList ++ executable ++ "' is not in the allowed list. ".toList
  | .inlineFlag flag executable =>
      "Inline-code execution flag '".toList ++ flag ++ "' is not permitted for interpreter '".toList
        ++ executable
        ++ "'. Run a script file in the workspace instead — inline code bypasses the workspace boundary.".toList

/-- The programs in force: those given, those configured, or the list's. -/
def allowedOf (given configured : Option (List PyStr)) : List PyStr :=
  given.getD (configured.getD ALLOWED_EXECUTABLES)

def CommandSpec.validateCommand (spec : CommandSpec) (given configured : Option (List PyStr)) :
    Except SandboxError Unit :=
  if spec.executable ∉ allowedOf given configured then .error (.notAllowed spec.executable)
  else
    match findInlineCodeFlag spec.executable spec.args with
    | some flag => .error (.inlineFlag flag spec.executable)
    | none => .ok ()

-- ===== the interpreters

inductive Interpreter
  | python | node
  deriving DecidableEq, Repr

def interpreterOf (executable : PyStr) : Option Interpreter :=
  if programName executable = "python".toList ∨ programName executable = "python3".toList then
    some .python
  else if programName executable = "node".toList then some .node
  else none

def pythonFlags : List Char := "bBdEiIOPqRsStuvx".toList

def pythonCluster : List Char → Reading
  | [] => .alone
  | c :: rest =>
      if c = 'c' then if rest = [] then .textNext else .text
      else if c = 'W' ∨ c = 'X' then if rest = [] then .skips else .alone
      else if c = '-' then if rest = "check-hash-based-pycs".toList then .skips else .ends
      else if c ∈ pythonFlags then pythonCluster rest
      -- a module, a text that is only shown, or no flag
      else .ends

def pythonRead : PyStr → Reading
  | ['-'] => .ends
  | '-' :: letters => pythonCluster letters
  | _ => .ends

def python : Grammar PyStr where
  read := pythonRead
  argument _ := true

inductive NodeOption
  | alone | skips | ends
  deriving DecidableEq, Repr

def NodeOption.reading : NodeOption → Reading
  | .alone => .alone
  | .skips => .skips
  | .ends => .ends

/-- Text behind the `=` of an option. -/
def hasValue (option w : PyStr) : Bool :=
  (option ++ ['=']).isPrefixOf w && decide (option.length + 1 < w.length)

def nodeRead (options : PyStr → NodeOption) (w : PyStr) : Reading :=
  if w.head? ≠ some '-' ∨ w = ['-'] ∨ w = "--".toList then .ends
  else if w = "-e".toList ∨ w = "--eval".toList ∨ w = "-pe".toList then .textNext
  else if w = "-p".toList ∨ w = "--print".toList then .textIf
  else if hasValue "--eval".toList w ∨ hasValue "--print".toList w then .text
  else (options w).reading

def node (options : PyStr → NodeOption) : Grammar PyStr where
  read := nodeRead options
  argument w := decide (w.head? ≠ some '-')

def runsText (options : PyStr → NodeOption) : Interpreter → List PyStr → Bool
  | .python, args => python.takes args
  | .node, args => (node options).takes args

end Velune.Commands
