import Vearch.Entity.User

-- `router/document/doc_http.go`: the check in front of every handler of the router.

namespace Auth

open Vearchpb

-- What the middleware reads and calls: `decode` is the decoding of base64, `getUser` and `roleByCache` are
-- the lookups of the caches.
structure Service where
  decode      : String → Except String String
  getUser     : String → Except Error User
  roleByCache : String → Except Error Role

structure Request where
  -- the header `Authorization`, empty when it is missing
  header   : String
  endpoint : String
  method   : String
  deriving DecidableEq

inductive Refusal
  -- answered with the text, and the handler is not called
  | unauthorized (msg : String)
  | invalid (err : Error)
  -- a user without a password or without a role is dereferenced
  | panic
  deriving DecidableEq

variable (service : Service)

def getRole (name : String) : Except Error Role :=
  match Role.roleMap name with
  | some role => .ok role
  | none      => service.roleByCache name

def credentials (header : String) : Except Refusal (String × String) :=
  if header = "" then .error (.unauthorized "auth header is empty")
  else
    match Text.splitN2 header ' ' with
    | none => .error (.unauthorized "auth header type is invalid")
    | some (type, encoded) =>
      if type ≠ "Basic" then .error (.unauthorized "auth header type is invalid")
      else
        match service.decode encoded with
        | .error msg  => .error (.unauthorized msg)
        | .ok decoded =>
          match Text.splitN2 decoded ':' with
          | none   => .error (.unauthorized "auth header credentials is invalid")
          | some c => .ok c

def authenticate (header : String) : Except Refusal Role := do
  let (name, password) ← credentials service header
  match service.getUser name with
  | .error _ => throw (.unauthorized s!"auth header user {name} is invalid")
  | .ok user =>
    match user.password with
    | none          => throw .panic
    | some expected =>
      if expected ≠ password then throw (.unauthorized "auth header password is invalid")
      match user.roleName with
      | none          => throw .panic
      | some roleName =>
        match getRole service roleName with
        | .error err => throw (.invalid err)
        | .ok role   => pure role

-- `BasicAuthMiddleware`. The handler runs just if the result is `ok`.
def basicAuthMiddleware (r : Request) : Except Refusal Unit := do
  let role ← authenticate service r.header
  match role.hasPermissionForResources r.endpoint r.method with
  | .error err => throw (.invalid err)
  | .ok ()     => pure ()

end Auth
