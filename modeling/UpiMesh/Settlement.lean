import UpiMesh.Server

/-!
# SettlementService

`settle` reads both accounts, checks the amount and the balance on the copies it read, and then
either records a rejection or runs the write block, at most three times.
-/

namespace UpiMesh

open Concurrent

/-- The clock readings and statement faults of one `settle` call, by attempt number. -/
structure SettleEnv where
  settledAt : ℕ → ℤ
  faults : ℕ → AttemptFaults := fun _ => {}

namespace SettlementService

def maxAttempts : ℕ := 3

/-- How an attempt ends: `settle` returns, throws, or enters the retry handler. -/
inductive AttemptResult where
  | returned (tx : Transaction)
  | thrown (e : Exn)
  | failed (e : Exn)

def AttemptResult.ofBlock : BlockResult → AttemptResult
  | .committed tx => .returned tx
  | .thrown e => .thrown e
  | .rolledBack e => .failed e

def findById (vpa : String) (fault : Option StatementFault) : Service (Option Account) :=
  Program.call (Action.findById vpa fault)

def writeBlock (sender receiver : Account) (call : SettleCall) (settledAt : ℤ)
    (faults : AttemptFaults) : Service BlockResult :=
  Program.call (Action.settleBlock sender receiver call settledAt faults)

def recordRejected (call : SettleCall) (settledAt : ℤ) (fault : Option StatementFault) :
    Service (Except Exn Transaction) :=
  Program.call (Action.saveTransaction (call.transaction settledAt .REJECTED) fault)

def unknownSender (call : SettleCall) : Exn :=
  .invalidArgument ("Unknown sender VPA: " ++ call.instruction.senderVpa)

def unknownReceiver (call : SettleCall) : Exn :=
  .invalidArgument ("Unknown receiver VPA: " ++ call.instruction.receiverVpa)

def amountNotPositive : Exn := .invalidArgument "Amount must be positive"

/-- The part of an attempt after both reads. -/
def afterReads (call : SettleCall) (settledAt : ℤ) (faults : AttemptFaults)
    (sender receiver : Account) : Service AttemptResult :=
  let amount := call.instruction.amount
  if amount ≤ 0 then
    pure (.thrown amountNotPositive)
  else if sender.balance < amount then do
    match ← recordRejected call settledAt faults.insert with
    | .ok tx => pure (.returned tx)
    | .error e => pure (.thrown e)
  else do
    let result ← writeBlock sender receiver call settledAt faults
    pure (.ofBlock result)

def attempt (call : SettleCall) (settledAt : ℤ) (faults : AttemptFaults) :
    Service AttemptResult := do
  match ← findById call.instruction.senderVpa faults.findSender with
  | none => pure (.thrown (unknownSender call))
  | some sender =>
    match ← findById call.instruction.receiverVpa faults.findReceiver with
    | none => pure (.thrown (unknownReceiver call))
    | some receiver => afterReads call settledAt faults sender receiver

/-- The loop `for (int attempt = 1; attempt <= maxAttempts; ++attempt)`, with the number of
iterations still allowed. -/
def attempts (call : SettleCall) (env : SettleEnv) (n : ℕ) :
    (remaining : ℕ) → Service (Except Exn Transaction)
  | 0 => pure (.error (.runtimeError "Settlement failed unexpectedly"))
  | remaining + 1 => do
    match ← attempt call (env.settledAt n) (env.faults n) with
    | .returned tx => pure (.ok tx)
    | .thrown e => pure (.error e)
    | .failed e =>
      if n = maxAttempts then pure (.error e) else attempts call env (n + 1) remaining

def settle (call : SettleCall) (env : SettleEnv) : Service (Except Exn Transaction) :=
  attempts call env 1 maxAttempts

end SettlementService
end UpiMesh
