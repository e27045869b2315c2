/-
The trusted tool executor (`orchestration/engine/toolexec.py`).

This module holds its vocabulary: results and their categories, what the
executor reads of the call, the policy and the registered tool, the
checks it makes before it asks for approval, the bounds it puts on
output, and the results it builds. The coroutine itself is in
Execute.lean.

Left out: the approval's display text, and the result's constants
(`origin` is always tool, `trusted` always false).
-/
import Mathlib.Data.Finset.Basic
import Velune.Engine.Approval
import Velune.Engine.ExecControl
import Velune.Lib.Utf8

namespace Velune.Engine

open Lib

-- ===== results

inductive ToolStatus
  | ok | refused | failed
  deriving DecidableEq, Repr

inductive ToolErrorCategory
  | malformed | notAllowed | unknownTool | toolChanged
  | approvalMissing | approvalDenied | approvalStale | approvalMismatch
  | authorizationDenied | hookBlocked | toolError | internal
  | budgetDeadline | budgetCalls | budgetArgumentBytes | budgetResultBytes | budgetConcurrency
  | deadlineExceeded | cancelled | duplicatePending | idempotencyConflict | outcomeUnknown
  deriving DecidableEq, Repr

inductive ToolOutcome
  | completed | failedBeforeExecution | failedDuringExecution | deadlineExceeded
  | cancelledBeforeExecution | cancelRequestedDuringExecution | outcomeUnknown
  deriving DecidableEq, Repr

def budgetCategory : BudgetRefusal → ToolErrorCategory
  | .deadline => .budgetDeadline
  | .calls => .budgetCalls
  | .argumentBytes => .budgetArgumentBytes
  | .resultBytes => .budgetResultBytes
  | .concurrency => .budgetConcurrency

def neverSafeToRetry : List ToolErrorCategory := [.duplicatePending, .idempotencyConflict]

def approvalCategory : ApprovalFailure → ToolErrorCategory
  | .missing => .approvalMissing
  | .denied => .approvalDenied
  | .stale => .approvalStale
  | .mismatch => .approvalMismatch

/-- `_REQUEST_ID.match`: the identifier pattern, whose `$` also matches
before a final newline. -/
def isRequestId (s : PyStr) : Bool :=
  isIdentifier s || (s.getLast? == some '\n' && isIdentifier s.dropLast)

structure ToolExecutionResult where
  invocationId : PyStr
  callId : PyStr
  tool : PyStr
  callDigest : PyStr
  status : ToolStatus
  error : Option ToolErrorCategory := none
  output : RawStr := []
  truncated : Bool := false
  originalChars : Nat := 0
  requestId : PyStr := []
  outcome : ToolOutcome := .completed
  executed : Bool := false
  cancelRequested : Bool := false
  replayed : Bool := false
  safeToRetry : Bool := false
  deriving DecidableEq, Repr

-- ===== calls

structure ValidatedToolCall where
  callId : PyStr
  name : PyStr
  argumentsJson : PyStr
  argumentsDigest : PyStr
  callDigest : PyStr
  declaredPermissions : Finset PyStr
  arguments_ok : isSha256 argumentsDigest = true
  digest_ok : isSha256 callDigest = true

/-- What the code takes from outside this repository's engine: the two
digests, JSON parsing (`none` for a text that does not parse), the
secret redaction and the run's own scrubber (`none` where it raises). -/
structure Host where
  argumentDigest : PyStr → PyStr
  callDigest : PyStr → PyStr → PyStr
  isJsonObject : PyStr → Option Bool
  redact : RawStr → RawStr
  scrub : Option (RawStr → Option RawStr)

/-- What the registered tool says about itself when it is asked: `none`
where the method raises. `schemaFits` is whether it has a schema that
can be enforced and that the call's arguments satisfy. -/
structure ToolReport where
  name : Option PyStr
  permissions : Option (Finset PyStr)
  schemaFits : Bool

/-- `registry.get(name)`. -/
inductive Lookup
  | raises
  | absent
  | found (report : ToolReport)

def READ_ONLY_PERMISSIONS : Finset PyStr :=
  {"filesystem.read".toList, "git.read".toList}

/-- The values of `ToolPermission`. -/
def toolPermissions : Finset PyStr :=
  {"filesystem.read".toList, "filesystem.write".toList, "git.read".toList,
    "git.write".toList, "terminal.execute".toList, "network.access".toList}

def READ_ONLY_TOOL_CEILING : List PyStr :=
  ["read_file".toList, "read_directory".toList, "grep_files".toList, "find_files".toList,
    "git_log".toList, "git_diff".toList, "git_blame".toList, "git_status".toList,
    "git_branch".toList]

def EXCLUDED_TOOLS : List PyStr :=
  ["execute_command".toList, "web_fetch".toList, "write_file".toList, "create_file".toList,
    "delete_file".toList, "create_directory".toList, "delete_directory".toList,
    "move_path".toList, "write_plan".toList, "git_commit".toList, "git_checkout".toList,
    "git_push".toList, "create_pr".toList, "terminal_history".toList]

/-- `_precheck`; `allowed` is the resolved policy. -/
def precheck (h : Host) (call : ValidatedToolCall) (allowed : List PyStr) :
    Option ToolErrorCategory :=
  if ¬ (h.argumentDigest call.argumentsJson = call.argumentsDigest
      ∧ h.callDigest call.name call.argumentsJson = call.callDigest
      ∧ h.isJsonObject call.argumentsJson = some true) then some .malformed
  else if call.name ∉ allowed ∨ call.name ∉ READ_ONLY_TOOL_CEILING
      ∨ call.name ∈ EXCLUDED_TOOLS then some .notAllowed
  else if call.declaredPermissions = ∅ ∨ ¬ call.declaredPermissions ⊆ READ_ONLY_PERMISSIONS then
    some .notAllowed
  else none

/-- `_tool_problem`, for a tool that was found. -/
def toolProblem (report : ToolReport) (call : ValidatedToolCall) : Option ToolErrorCategory :=
  if report.name ≠ some call.name then some .toolChanged
  else
    match report.permissions with
    | none => some .toolChanged
    | some live =>
        if live ≠ call.declaredPermissions ∨ ¬ live ⊆ READ_ONLY_PERMISSIONS then
          some .toolChanged
        else if report.schemaFits then none
        else some .toolChanged

-- ===== output

def MAX_OUTPUT_CHARS : Nat := 20000

def SCRUB_FAILED_TEXT : RawStr :=
  PyStr.raw "[output withheld: the secret scrubber failed]".toList

def TRUNCATION_MARKER : RawStr := PyStr.raw "\n[output truncated by the engine]".toList

/-- The sanitized text: redacted, then scrubbed; a scrubber that fails
withholds the output. -/
def sanitize (h : Host) (raw : RawStr) : RawStr :=
  match h.scrub with
  | none => h.redact raw
  | some scrub => (scrub (h.redact raw)).getD SCRUB_FAILED_TEXT

/-- The clip of `bound_output`. -/
def boundText (text : RawStr) : RawStr :=
  if text.length ≤ MAX_OUTPUT_CHARS then text
  else text.take (MAX_OUTPUT_CHARS - TRUNCATION_MARKER.length) ++ TRUNCATION_MARKER

/-- `bound_output`: text, truncated, original length. -/
def boundOutput (h : Host) (raw : RawStr) : RawStr × Bool × Nat :=
  (boundText (sanitize h raw), decide (MAX_OUTPUT_CHARS < (sanitize h raw).length),
    (sanitize h raw).length)

/-- `_clip_bytes`, on a text that encodes. -/
def clipBytes (text : PyStr) (limit : Nat) : PyStr × Bool :=
  if (Utf8.encode text).length ≤ limit then (text, false)
  else (Utf8.decodeIgnore ((Utf8.encode text).take limit), true)

-- ===== building results

/-- The outcome `_result` fills in when none is given. -/
def defaultOutcome : ToolStatus → ToolOutcome
  | .ok => .completed
  | .refused => .failedBeforeExecution
  | .failed => .failedDuringExecution

/-- `_result`, from the fields it is called with: `safe_to_retry` is its
own. -/
def mkResult (r : ToolExecutionResult) : ToolExecutionResult :=
  { r with
    safeToRetry := r.outcome == .failedBeforeExecution && !r.executed
      && !(neverSafeToRetry.any fun e => r.error == some e) }

variable (call : ValidatedToolCall)

def refusal (invocationId key : PyStr) (error : ToolErrorCategory) : ToolExecutionResult :=
  mkResult
    { invocationId := invocationId, callId := call.callId, tool := call.name
      callDigest := call.callDigest, status := .refused, error := some error, requestId := key
      outcome := defaultOutcome .refused }

def internalError (invocationId key : PyStr) (executed : Bool) : ToolExecutionResult :=
  mkResult
    { invocationId := invocationId, callId := call.callId, tool := call.name
      callDigest := call.callDigest, status := .failed, error := some .internal
      requestId := key, executed := executed
      outcome := if executed then .outcomeUnknown else .failedBeforeExecution }

def unknownResult (invocationId key : PyStr) (outcome : ToolOutcome)
    (cancelRequested : Bool) : ToolExecutionResult :=
  mkResult
    { invocationId := invocationId, callId := call.callId, tool := call.name
      callDigest := call.callDigest, status := .failed, error := some .outcomeUnknown
      requestId := key, executed := true, cancelRequested := cancelRequested
      outcome := outcome }

/-- The tool raised something that is not provably from before it ran. -/
def toolErrorResult (invocationId key : PyStr) (cancelRequested : Bool) : ToolExecutionResult :=
  mkResult
    { invocationId := invocationId, callId := call.callId, tool := call.name
      callDigest := call.callDigest, status := .failed, error := some .toolError
      requestId := key, executed := true, cancelRequested := cancelRequested
      outcome := .failedDuringExecution }

def returnedResult (invocationId key : PyStr) (late cancelRequested : Bool) (output : RawStr)
    (truncated : Bool) (original : Nat) : ToolExecutionResult :=
  mkResult
    { invocationId := invocationId, callId := call.callId, tool := call.name
      callDigest := call.callDigest, status := if late then .failed else .ok
      error := if late then some .deadlineExceeded else none
      requestId := key, executed := true, cancelRequested := cancelRequested
      output := output, truncated := truncated, originalChars := original
      outcome := if late then .deadlineExceeded else .completed }

/-- A call without a control that returned: the executor labels it
completed and leaves `executed` at its default. -/
def plainResult (invocationId : PyStr) (output : RawStr) (truncated : Bool) (original : Nat) :
    ToolExecutionResult :=
  mkResult
    { invocationId := invocationId, callId := call.callId, tool := call.name
      callDigest := call.callDigest, status := .ok, output := output
      truncated := truncated, originalChars := original, outcome := .completed }

def cancelledResult (invocationId key : PyStr) : ToolExecutionResult :=
  mkResult
    { invocationId := invocationId, callId := call.callId, tool := call.name
      callDigest := call.callDigest, status := .refused, error := some .cancelled
      requestId := key, cancelRequested := true, outcome := .cancelledBeforeExecution }

def ToolExecutionResult.replay (r : ToolExecutionResult) : ToolExecutionResult :=
  { r with replayed := true, safeToRetry := false }

def unrecordedResult (key : PyStr) : ToolExecutionResult :=
  mkResult
    { invocationId := [], callId := call.callId, tool := call.name
      callDigest := call.callDigest, status := .failed, error := some .outcomeUnknown
      requestId := key, executed := true, replayed := true, outcome := .outcomeUnknown }

/-- `_duplicate`; `none` for the claim that is not one. -/
def duplicate (key : PyStr) : Claim ToolExecutionResult → Option ToolExecutionResult
  | .new => none
  | .conflict => some (refusal call [] key .idempotencyConflict)
  | .pending => some (refusal call [] key .duplicatePending)
  | .settled _ (some r) => some r.replay
  | .settled _ none => some (unrecordedResult call key)

end Velune.Engine
