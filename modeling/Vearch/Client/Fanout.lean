import Vearch.Lib.Decimal
import Vearch.Client.Merge

-- `client/client.go`, `client/ps.go` and `pkg/server/rpc/rpc_client.go`: requests to all partitions of a space or to
-- all replicas of a partition, and what becomes of the errors.

namespace RouterRequest

open Vearchpb

inductive Call (R : Type)
  | nilClient
  -- the context has ended, with its error
  | ended (text : List Char)
  | tooShort (timeout : Int)
  | deadline
  | failed (text : List Char)
  | panicked (text : List Char)
  | replied (reply : R)

variable {R S : Type}

def Call.execute : Call R → Except GoError R
  | .nilClient        => .error (.vearch (newError .createRpcClientFailed none))
  | .ended text       => .error (.vearch (newError .timeout (some (.other text))))
  | .tooShort timeout =>
    .error (.vearch (newError .paramError
      (some (.other ("timeout[".toList ++ Decimal.itoa timeout ++ "] is too small".toList)))))
  | .deadline         => .error (.vearch (newError .timeout none))
  | .failed text      => .error (.vearch (newError .callRpcClientFailed (some (.other text))))
  | .panicked text    => .error (.other text)
  | .replied reply    => .ok reply

structure Failure where
  error   : Error
  code_ne : error.code ≠ .success

inductive SearchReply (S : Type)
  | err (e : Failure)
  | response (head : Option Failure) (results : List (SearchResult S)) (exceeds : Bool)

inductive Outcome (S : Type)
  | noPartition (partitionID : Nat)
  -- all replicas are faulty
  | faulty (text : List Char)
  | noClient (nodeID : Nat)
  | panicked (text : List Char)
  | called (call : Call (SearchReply S))

-- The text of `VearchErr.Error`.
def errorText (e : Error) : List Char :=
  if e.msg ≠ [] then e.msg else e.code.name.toList

def retryError : GoError → Error
  | .vearch e   => ⟨e.code, errorText e⟩
  | .other text => ⟨.internalError, text⟩

def SearchReply.answer : SearchReply S → Answer S
  | .err e                   => .err e.error
  | .response head results _ => .response (head.map (·.error)) results

def Outcome.answer : Outcome S → Answer S
  | .noPartition partitionID =>
    .response (some ⟨.routerNoPsClient, "query partition cache err partitionID:".toList ++ Decimal.itoa partitionID⟩) []
  | .faulty text             => .response (some (retryError (.other text))) []
  | .noClient nodeID         =>
    .response (some ⟨.routerNoPsClient, "no ps client by nodeID:".toList ++ Decimal.itoa nodeID⟩) []
  | .panicked text           => .response (some ⟨.recover, text⟩) []
  | .called call             => match call.execute with
    | .error e  => .response (some (retryError e)) []
    | .ok reply => reply.answer

def SearchReply.cancels : SearchReply S → Bool
  | .err _                   => false
  | .response head _ exceeds => decide (head.map (·.error.code) = some .partitionServerMemoryExceed) || exceeds

def Outcome.cancels : Outcome S → Bool
  | .called (.replied reply) => reply.cancels
  | _                        => false

def requestCanceled : Error :=
  newError .partitionServerMemoryExceed (some (.other "request canceled".toList))

-- `SearchFieldSortExecute`, with the outcomes in the order in which they arrive.
def searchFieldSortExecute [LinearOrder S] (sorting : SliceSort S) (req : SearchRequest) (desc : Bool)
    (outcomes : List (Outcome S)) : Executed S :=
  if outcomes.any (·.cancels) then .nil requestCanceled
  else searchMerge sorting req desc (outcomes.map (·.answer))

structure DelByQueryReply where
  err      : Option Failure
  response : Option (Option Failure × List Bytes)

inductive DelByQueryOutcome
  | panicked (text : List Char)
  | called (call : Call DelByQueryReply)

structure DelByQueryResponse where
  err    : Option Error
  delNum : Int32
  idsStr : List Bytes
  deriving DecidableEq

def DelByQueryOutcome.ids : DelByQueryOutcome → List Bytes
  | .panicked _  => []
  | .called call => match call.execute with
    | .error _                  => []
    | .ok ⟨none, some (_, ids)⟩ => ids
    | .ok _                     => []

def delByQueryExecute (outcomes : List DelByQueryOutcome) : DelByQueryResponse :=
  let idsStr := outcomes.flatMap (·.ids)
  ⟨none, Int32.ofNat idsStr.length, idsStr⟩

structure Shared where
  err  : Option Error
  sent : Bool
  deriving DecidableEq

def Shared.write (s : Shared) (call : Call (Option Failure)) : Shared :=
  match call.execute with
  | .error e  => { s with err := some (newError .internalError (some e)) }
  | .ok reply => ⟨reply.map (·.error), true⟩

-- `ReplicaRebuildIndexExecute`, with the calls in the order in which they end.
def replicaRebuildIndexExecute (calls : List (Call (Option Failure))) : Option Error :=
  let s := calls.foldl Shared.write ⟨none, false⟩
  if s.sent then s.err else none

def leaderFlushExecute (call : Call (Option Failure)) : Option Error :=
  match call.execute with
  | .error e  => some (newError .success (some e))
  | .ok reply => reply.map (·.error)

end RouterRequest
