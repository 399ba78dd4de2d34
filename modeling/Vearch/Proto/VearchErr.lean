import Mathlib.Tactic.SplitIfs

-- `proto/vearchpb/vearch_err.go`: errors with a code.

namespace Vearchpb

inductive ErrorEnum
  | success
  | internalError
  | recover
  | timeout
  | paramError
  | routerNoPsClient
  | partitionIsClosed
  | partitionServerMemoryExceed
  | documentNotExist
  | createRpcClientFailed
  | callRpcClientFailed
  | userExist
  | userNotExist
  | roleExist
  | roleNotExist
  | aliasNotExist
  | authenticationFailed
  -- any other code, by its name
  | other (name : String)
  deriving DecidableEq

def ErrorEnum.name : ErrorEnum → String
  | .success                     => "SUCCESS"
  | .internalError               => "INTERNAL_ERROR"
  | .recover                     => "RECOVER"
  | .timeout                     => "TIMEOUT"
  | .paramError                  => "PARAM_ERROR"
  | .routerNoPsClient            => "ROUTER_NO_PS_CLIENT"
  | .partitionIsClosed           => "PARTITION_IS_CLOSED"
  | .partitionServerMemoryExceed => "PARTITION_SERVER_MEMORYEXCEED"
  | .documentNotExist            => "DOCUMENT_NOT_EXIST"
  | .createRpcClientFailed       => "CREATE_RPCCLIENT_FAILED"
  | .callRpcClientFailed         => "CALL_RPCCLIENT_FAILED"
  | .userExist                   => "USER_EXIST"
  | .userNotExist                => "USER_NOT_EXIST"
  | .roleExist                   => "ROLE_EXIST"
  | .roleNotExist                => "ROLE_NOT_EXIST"
  | .aliasNotExist               => "ALIAS_NOT_EXIST"
  | .authenticationFailed        => "AUTHENTICATION_FAILED"
  | .other name                  => name

def errMsg (code : ErrorEnum) : List Char :=
  code.name.toList.map Char.toLower

structure Error where
  code : ErrorEnum
  msg  : List Char
  deriving DecidableEq

-- A value of the type `error`: a `*VearchErr`, or any other with its text.
inductive GoError
  | vearch (e : Error)
  | other (text : List Char)
  deriving DecidableEq

def newError (code : ErrorEnum) : Option GoError → Error
  | none               => ⟨code, errMsg code⟩
  | some (.vearch e)   => e
  | some (.other text) => if errMsg code <+: text then ⟨code, text⟩ else ⟨code, errMsg code ++ ':' :: text⟩

def Error.param (msg : String) : Error :=
  newError .paramError (some (.other msg.toList))

variable {code : ErrorEnum} {e : Error} {text : List Char}

@[simp]
theorem newError_vearch : newError code (some (.vearch e)) = e :=
  rfl

@[simp]
theorem code_newError_other : (newError code (some (.other text))).code = code := by
  rw [newError]
  split_ifs <;> rfl

end Vearchpb
