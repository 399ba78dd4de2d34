import Mathlib.Data.List.Infix
import Mathlib.Logic.Function.Basic
import Vearch.Proto.VearchErr

-- `entity/user.go`: users, roles and what a role may do.

open Vearchpb

namespace Text

def hasPrefix (s p : String) : Bool :=
  p.toList.isPrefixOf s.toList

def contains (s p : String) : Bool :=
  decide (p.toList <:+: s.toList)

-- `strings.EqualFold`, for texts of which no letter folds to one outside of ASCII.
def equalFold (s t : String) : Bool :=
  s.toList.map Char.toLower == t.toList.map Char.toLower

-- `strings.SplitN` with a separator of one letter and at most two parts, if there are two.
def splitN2 (s : String) (sep : Char) : Option (String × String) :=
  match s.toList.span (· != sep) with
  | (_, [])              => none
  | (before, _ :: after) => some (String.ofList before, String.ofList after)

end Text

inductive Privilege
  | none
  | writeOnly
  | readOnly
  | writeRead
  deriving DecidableEq

inductive Resource
  | all
  | cluster
  | server
  | partition
  | db
  | space
  | document
  | index
  | aliases
  | user
  | role
  | config
  | cache
  deriving DecidableEq

def Resource.text : Resource → String
  | all       => "ResourceAll"
  | cluster   => "ResourceCluster"
  | server    => "ResourceServer"
  | partition => "ResourcePartition"
  | db        => "ResourceDB"
  | space     => "ResourceSpace"
  | document  => "ResourceDocument"
  | index     => "ResourceIndex"
  | aliases   => "ResourceAlias"
  | user      => "ResourceUser"
  | role      => "ResourceRole"
  | config    => "ResourceConfig"
  | cache     => "ResourceCache"

inductive OperatorType
  | grant
  | revoke
  deriving DecidableEq

structure Role where
  name       : String
  operator   : Option OperatorType := none
  privileges : Resource → Option Privilege

namespace Role

def rootName : String :=
  "root"

def ofList (name : String) (privileges : List (Resource × Privilege)) : Role where
  name := name
  privileges := (privileges.lookup ·)

def root : Role :=
  ofList "root" [(.all, .writeRead)]

def clusterAdmin : Role :=
  ofList "defaultClusterAdmin"
    [(.cluster, .writeRead), (.server, .writeRead), (.partition, .writeRead), (.db, .writeRead),
      (.space, .writeRead), (.document, .writeRead), (.index, .writeRead), (.aliases, .writeRead),
      (.config, .writeRead), (.user, .writeRead), (.role, .writeRead)]

def spaceAdmin : Role :=
  ofList "defaultSpaceAdmin"
    [(.space, .writeRead), (.document, .writeRead), (.index, .writeRead), (.aliases, .readOnly)]

def documentAdmin : Role :=
  ofList "defaultDocumentAdmin" [(.document, .writeRead), (.index, .writeRead)]

def readDBSpaceEditDocument : Role :=
  ofList "defaultReadDBSpaceEditDocument"
    [(.cluster, .readOnly), (.db, .readOnly), (.space, .readOnly), (.document, .writeRead),
      (.index, .writeRead), (.aliases, .readOnly)]

def readSpaceEditDocument : Role :=
  ofList "defaultReadSpaceEditDocument"
    [(.space, .readOnly), (.document, .writeRead), (.index, .writeRead), (.aliases, .readOnly)]

-- `RoleMap`, the roles that exist without being stored.
def builtin : List (String × Role) :=
  [root, clusterAdmin, spaceAdmin, documentAdmin, readDBSpaceEditDocument,
    readSpaceEditDocument].map fun role => (role.name, role)

def roleMap (name : String) : Option Role :=
  builtin.lookup name

end Role

-- `ParseResources`: the resource that a route belongs to and the privilege that a request needs for it.
def parseResources (endpoint method : String) : Resource × Privilege :=
  let privilege : Privilege := if method = "GET" then .readOnly else .writeOnly
  if Text.hasPrefix endpoint "/cluster" then (.cluster, privilege)
  else if Text.hasPrefix endpoint "/servers" then (.server, privilege)
  else if Text.hasPrefix endpoint "/partitions" then (.partition, privilege)
  else if Text.hasPrefix endpoint "/dbs" then
    (if Text.contains endpoint "/spaces" then .space else .db, privilege)
  else if Text.hasPrefix endpoint "/backup" then (.space, privilege)
  else if Text.hasPrefix endpoint "/document" then
    -- the method does not matter here
    (.document,
      if Text.contains endpoint "query" || Text.contains endpoint "search" then .readOnly
      else .writeOnly)
  else if Text.hasPrefix endpoint "/index" then (.index, privilege)
  else if Text.hasPrefix endpoint "/alias" then (.aliases, privilege)
  else if Text.hasPrefix endpoint "/config" then (.config, privilege)
  else if Text.hasPrefix endpoint "/users" then (.user, privilege)
  else if Text.hasPrefix endpoint "/roles" then (.role, privilege)
  else if Text.hasPrefix endpoint "/cache" then (.cache, privilege)
  else (.all, privilege)

namespace Role

def hasPermissionForResources (role : Role) (endpoint method : String) : Except Error Unit :=
  if role.name = rootName then .ok ()
  else
    let (resource, privilege) := parseResources endpoint method
    match role.privileges resource with
    | some value =>
      -- both ways lead to the end of the function, which returns no error
      if privilege = value ∨ value = .writeRead then .ok () else .ok ()
    | none =>
      .error (newError .authenticationFailed
        (some (.other s!"role:{role.name} don't have privilege for resource: {resource.text}".toList)))

end Role

structure User where
  name        : String
  password    : Option String := none
  oldPassword : Option String := none
  roleName    : Option String := none
  deriving DecidableEq

inductive NameType
  | role
  | user
  deriving DecidableEq

def NameType.text : NameType → String
  | role => "Role"
  | user => "User"

def refusedChars : List Char :=
  "\t\n\x0b\x0c\r \u0085\u00a0\\+-!*/():^[]\"\x7b\x7d~%&'<>?".toList

section

-- `unicode.IsNumber`
variable (isNumber : Char → Bool)

def validateName (name : String) (type : NameType) (checkRoot : Bool) : Except Error Unit :=
  match name.toList with
  | [] => .error (.param s!"{type.text} name can not be empty string")
  | first :: rest =>
    if isNumber first then .error (.param s!"{type.text} name : {name} can not start with num")
    else if first = '_' then .error (.param s!"{type.text} name : {name} can not start with _")
    else
      match (first :: rest).find? (refusedChars.contains ·) with
      | some r => .error (.param s!"character '{r}' can not in {type.text} name[{name}]")
      | none =>
        if checkRoot && Text.equalFold name "root" then
          .error (.param s!"{type.text} name can't be root")
        else .ok ()

def Role.validate (role : Role) : Except Error Unit :=
  validateName isNumber role.name .role true

def User.validate (user : User) (checkRoot : Bool) : Except Error Unit := do
  validateName isNumber user.name .user checkRoot
  if user.password = some "" then .error (.param "user password is empty")
  else if checkRoot && user.roleName.any (Text.equalFold · Role.rootName) then
    .error (.param "user role name can't be root")
  else .ok ()

end
