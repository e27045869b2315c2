/-
The tool-calling loop (`orchestration/tool_loop.py`): model turns, the
calls of a turn, and what is appended to the conversation.

Everything the loop does not decide is `Env`: the provider, the approver,
the tools, the batch prompt, the texts `json.dumps` makes. Each may
change a world of its own between any two steps, and may raise. A tool
also reaches the permission gate, and may leave it in any state.

A conversation is a list of messages; those the request came with are
kept as they are. Beside the source's fields the state records what each
model call was sent and, for each invocation, whether the call was
handed to `_execute_call`.
-/
import Velune.Lib.Effect
import Velune.Permissions.Gate
import Velune.ToolLoop.Definitions

namespace Velune.ToolLoop

open Lib
open Permissions (Action PermissionGate)

-- ===== values

structure ToolCall where
  id : PyStr
  name : PyStr
  arguments : Json

/-- `InferenceResponse`, as far as the loop reads it; no call is both
`None` and an empty list. -/
structure InferenceResponse where
  content : PyStr
  toolCalls : List ToolCall
  tokensUsed : Nat

/-- `ToolInvocation`, without its duration. -/
structure ToolInvocation where
  call : ToolCall
  result : PyStr
  error : Bool

inductive Message
  /-- One the request came with. -/
  | given (message : Json)
  | assistant (content : PyStr)
  /-- `_assistant_tool_message`: each call's id, name and arguments. -/
  | assistantCalls (content : PyStr) (calls : List (PyStr × PyStr × PyStr))
  /-- A tool result; `is_error` is there when it is true. -/
  | toolResult (callId content : PyStr) (isError : Bool)

/-- `InferenceRequest`, as far as the loop writes it. -/
structure InferenceRequest where
  messages : List Message
  tools : List Definition
  /-- The request's own `tool_choice`; else it is `auto`. -/
  ownToolChoice : Bool

inductive StopReason
  | completed | noTools | repeatedFailure | maxTurns
  deriving DecidableEq, Repr

def StopReason.value : StopReason → PyStr
  | .completed => "completed".toList
  | .noTools => "no_tools".toList
  | .repeatedFailure => "repeated_failure".toList
  | .maxTurns => "max_turns".toList

structure ToolLoopResult where
  content : PyStr
  turns : Nat
  invocations : List ToolInvocation
  tokensUsed : Nat
  stopReason : StopReason
  messages : List Message

inductive Raised
  | cancelled
  | exception (text : PyStr)

/-- How running a tool ended: with a result, put as text; refused by the
gate or a permission; with another exception; or cancelled. -/
inductive ToolEnd
  | value (text : PyStr)
  | blocked (text : PyStr)
  | raised (typeName text : PyStr)
  | cancelled

def MAX_REPEATED_FAILURES : Nat := 3

-- ===== environment

structure Env (ω : Type) where
  /-- `json.dumps(arguments)`. -/
  dumps : Json → PyStr
  /-- `json.dumps(arguments, sort_keys=True, default=str)`, else `repr`. -/
  dumpsSorted : Json → PyStr
  /-- `redact_secrets`. -/
  redact : PyStr → PyStr
  maxResultChars : Nat
  /-- The decimal text of a number. -/
  decimal : Nat → PyStr
  infer : InferenceRequest → ω → Except Raised InferenceResponse × ω
  /-- `get_required_permissions` of a local tool. -/
  requiredPermissions : BaseTool → ω → Except Raised (List PyStr) × ω
  approve : PyStr → Json → List PyStr → ω → Except Raised Bool × ω
  describeActions : BaseTool → Json → PermissionGate → Option (List Action)
  askBatch : List (PyStr × List Action) → ω → Except Raised Bool × ω
  runTool : Target → ToolCall → Option PermissionGate → ω → ToolEnd × Option PermissionGate × ω

/-- An invocation, and whether its call was handed to `_execute_call`. -/
structure Logged where
  invocation : ToolInvocation
  executed : Bool

/-- What a model call was sent, and the gate it was made under. -/
structure Sent where
  messages : List Message
  gate : Option PermissionGate

structure Run (ω : Type) where
  world : ω
  gate : Option PermissionGate
  built : Built
  messages : List Message := []
  log : List Logged := []
  failedCalls : List (PyStr × PyStr) := []
  repeated : Nat := 0
  tokensUsed : Nat := 0
  sent : List Sent := []

def Run.invocations {ω : Type} (run : Run ω) : List ToolInvocation := run.log.map (·.invocation)

variable {ω : Type} (env : Env ω)

def world {ε α : Type} (f : ω → Except Raised α × ω) (onError : Raised → Eff (Run ω) ε α) :
    Eff (Run ω) ε α := do
  let answer ← modifyGet fun run => ((f run.world).1, { run with world := (f run.world).2 })
  match answer with
  | .ok a => pure a
  | .error e => onError e

-- ===== calls

def callKey (call : ToolCall) : PyStr × PyStr := (call.name, env.dumpsSorted call.arguments)

def assistantToolMessage (response : InferenceResponse) : Message :=
  .assistantCalls response.content
    (response.toolCalls.map fun c => (c.id, c.name, env.dumps c.arguments))

def resultMessage (invocation : ToolInvocation) : Message :=
  .toolResult invocation.call.id invocation.result invocation.error

def shownResult (text : PyStr) : PyStr :=
  let text := env.redact text
  if env.maxResultChars < text.length then
    text.take env.maxResultChars ++ "\n… [truncated ".toList
      ++ env.decimal (text.length - env.maxResultChars) ++ " characters]".toList
  else text

def failedWith (call : ToolCall) (text : PyStr) : ToolInvocation := ⟨call, text, true⟩

def callPermissions : Target → Eff (Run ω) Raised (List PyStr)
  | .local tool => world (env.requiredPermissions tool) throw
  | .mcp _ => pure ["NETWORK_ACCESS".toList]

/-- `sorted(self._route)`, joined. -/
def availableTools (built : Built) : PyStr :=
  Text.join ", ".toList ((built.offers.map (·.name)).insertionSort fun a b => a ≤ b)

/-- The end of `_execute_call`: the tool is run, and how it ends becomes
an invocation, but for a cancellation. -/
def runRouted (target : Target) (call : ToolCall) : Eff (Run ω) Raised ToolInvocation := do
  let ended ← modifyGet fun run =>
    let (ended, gate, w) := env.runTool target call run.gate run.world
    (ended, { run with gate := gate, world := w })
  match ended with
  | .value text => pure ⟨call, shownResult env text, false⟩
  | .blocked text => pure (failedWith call (shownResult env ("Error: ".toList ++ text)))
  | .raised typeName text =>
      pure (failedWith call (shownResult env ("Error: ".toList ++ typeName ++ ": ".toList ++ text)))
  | .cancelled => throw .cancelled

/-- `_execute_call`. An approver that raises denies. -/
def executeCall (call : ToolCall) : Eff (Run ω) Raised ToolInvocation := do
  let run ← get
  match run.built.route call.name with
  | none =>
      pure (failedWith call ("Error: unknown tool '".toList ++ call.name
        ++ "'. Available tools: ".toList ++ availableTools run.built))
  | some target =>
      let permissions ← callPermissions env target
      let approved ← world (env.approve call.name call.arguments permissions) fun
        | .cancelled => throw .cancelled
        | .exception _ => pure false
      if approved then runRouted env target call
      else
        pure (failedWith call ("Error: the user denied permission to run '".toList ++ call.name
          ++ "'.".toList))

-- ===== turns

/-- The calls of a turn the gate may be asked about together. -/
def described (built : Built) (gate : PermissionGate) (calls : List ToolCall) :
    List (PyStr × List Action) :=
  calls.filterMap fun call =>
    match built.route call.name with
    | some (.local tool) =>
        (env.describeActions tool call.arguments gate).map fun actions => (call.name, actions)
    | _ => none

def preauthorizeBatch (calls : List ToolCall) : Eff (Run ω) Raised PUnit := do
  let run ← get
  match run.gate with
  | none => pure ⟨⟩
  | some gate =>
      if calls.length < 2 then pure ⟨⟩
      else
        let proposed := described env run.built gate calls
        if gate.canAskBatch = false ∨ (gate.pending proposed).length < 2 then pure ⟨⟩
        else
          let reply ← world
            (fun w => let (answer, w) := env.askBatch (gate.pending proposed) w
                      (answer.map some, w))
            fun
            | .cancelled => throw .cancelled
            | .exception _ => pure none
          Eff.update fun run => { run with gate := some (gate.preauthorize proposed reply).1 }

def notRetriedText : PyStr :=
  "Error: not retried — this exact call already failed. Change ".toList
    ++ "the arguments or the approach before trying again.".toList

/-- `failed_calls.add(key)`, for a call that failed. -/
def noteFailure (invocation : ToolInvocation) : Eff (Run ω) Raised PUnit :=
  if invocation.error then
    Eff.update fun run => { run with failedCalls := callKey env invocation.call :: run.failedCalls }
  else pure ⟨⟩

/-- One call of a turn: a repeated failure is answered, another call is
executed. -/
def answerCall (call : ToolCall) : Eff (Run ω) Raised Logged := do
  let run ← get
  if callKey env call ∈ run.failedCalls then
    Eff.update fun run => { run with repeated := run.repeated + 1 }
    pure ⟨failedWith call notRetriedText, false⟩
  else
    let invocation ← executeCall env call
    noteFailure env invocation
    pure ⟨invocation, true⟩

def answerCalls : List ToolCall → Eff (Run ω) Raised PUnit
  | [] => pure ⟨⟩
  | call :: rest => do
      let logged ← answerCall env call
      Eff.update fun run => { run with
        log := run.log ++ [logged]
        messages := run.messages ++ [resultMessage logged.invocation] }
      answerCalls rest

/-- `gate.clear_batch()`. -/
def clearBatch : Eff (Run ω) Raised PUnit :=
  Eff.update fun run => { run with gate := run.gate.map (·.clearBatch) }

/-- `try: ... finally: gate.clear_batch()`. -/
def answerThenClear (calls : List ToolCall) : Eff (Run ω) Raised PUnit := do
  tryCatch (answerCalls env calls) fun e => do
    clearBatch
    throw e
  clearBatch

def stop (content : PyStr) (turns : Nat) (reason : StopReason) :
    Eff (Run ω) Raised ToolLoopResult := do
  let run ← get
  pure ⟨content, turns, run.invocations, run.tokensUsed, reason, run.messages⟩

/-- The model call of a turn. The cache manager leaves the messages
alone. -/
def inferTurn (tools : List Definition) (turn : Nat) : Eff (Run ω) Raised InferenceResponse := do
  let run ← get
  Eff.update fun run => { run with sent := run.sent ++ [⟨run.messages, run.gate⟩] }
  let response ← world (env.infer ⟨run.messages, tools, turn == 1⟩) throw
  Eff.update fun run => { run with tokensUsed := run.tokensUsed + response.tokensUsed }
  pure response

def repeatedText : PyStr :=
  "I stopped because I kept retrying a tool call that had already ".toList
    ++ "failed, without changing anything. See the errors above.".toList

/-- The turns from `turn` on, `left` of them. -/
def turns (tools : List Definition) : (left turn : Nat) → Eff (Run ω) Raised ToolLoopResult
  | 0, turn => stop [] (turn - 1) .maxTurns
  | left + 1, turn => do
      let response ← inferTurn env tools turn
      if response.toolCalls.isEmpty then
        Eff.update fun run => { run with messages := run.messages ++ [.assistant response.content] }
        stop response.content turn (if tools.isEmpty then .noTools else .completed)
      else
        Eff.update fun run =>
          { run with messages := run.messages ++ [assistantToolMessage env response] }
        preauthorizeBatch env response.toolCalls
        answerThenClear env response.toolCalls
        let run ← get
        if MAX_REPEATED_FAILURES ≤ run.repeated then stop repeatedText turn .repeatedFailure
        else turns tools left (turn + 1)

/-- `ToolLoopRunner.run`, of a runner made with `max_turns`. `fresh` is
what `build_tool_definitions` would build now: it is used where the
request brings no tools of its own, and its routes where there are none
yet. -/
def runLoop (maxTurns : Int) (fresh : Built) (ownTools : Option (List Definition))
    (request : List Json) : Eff (Run ω) Raised ToolLoopResult := do
  let tools := ownTools.getD fresh.definitions
  Eff.update fun run => { run with
    messages := request.map .given
    built := if ownTools.isNone || (run.built.offers.isEmpty && !tools.isEmpty) then fresh
      else run.built }
  turns env tools (max 1 maxTurns).toNat 1

end Velune.ToolLoop
