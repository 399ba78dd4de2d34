import Vearch.Lib.Machine
import Vearch.Entity.User

-- `client/master_cache.go`: the users and roles of etcd that a router keeps in memory.

structure Kind (α : Type) where
  -- the prefix without its last slash
  dir    : String
  nameOf : α → String
  -- whether a name that is in the cache already ends the first load
  strict : Bool

namespace Kind

variable {α : Type} (k : Kind α)

-- `UserKey` and `RoleKey`
def key (name : String) : String :=
  k.dir ++ "/" ++ name

def user (cluster : String) : Kind User where
  dir := cluster ++ "/user"
  nameOf := User.name
  strict := true

def role (cluster : String) : Kind Role where
  dir := cluster ++ "/role"
  nameOf := Role.name
  strict := false

-- `ValidateName` refuses names with a slash, under which nothing is stored then.
def Plain (name : String) : Prop :=
  '/' ∉ name.toList

instance (name : String) : Decidable (Plain name) :=
  inferInstanceAs (Decidable (_ ∉ _))

structure Stored where
  values : List α
  nodup  : (values.map k.nameOf).Nodup
  plain  : ∀ v ∈ values, Plain (k.nameOf v)

def Stored.get {k : Kind α} (stored : k.Stored) (name : String) : Option α :=
  stored.values.find? (k.nameOf · = name)

-- `strings.Split(key, "/")` and the last part of it
def lastPart (key : String) : String :=
  String.ofList (key.toList.reverse.takeWhile (· ≠ '/')).reverse

end Kind

inductive Event (α : Type)
  | put (value : α)
  | delete (key : String)
  deriving DecidableEq

structure ClientCache (α : Type) where
  etcd     : String → Option α
  -- the latest change in etcd, if it was made under the prefix
  last     : Option (Event α)
  cache    : String → Option α
  watching : Bool
  -- sent by etcd and not handled yet
  events   : List (Event α)
  -- read by a lookup and not yet in the cache
  reloads  : List (String × α)

namespace ClientCache

variable {α : Type} (k : Kind α)

-- `initUser` and `initRole`
def init (values : List α) : Option (String → Option α) :=
  values.foldlM
    (fun cache v =>
      if (cache (k.nameOf v)).isSome then if k.strict then none else some cache
      else some (Function.update cache (k.nameOf v) (some v)))
    (fun _ => none)

def load (stored : k.Stored) (last : Option (Event α)) : Option (ClientCache α) :=
  (init k stored.values).map fun cache =>
    { etcd := stored.get, last, cache, watching := false, events := [], reloads := [] }

-- The handlers of the watch. The key of a new value is the one that it has in etcd.
def handle (cache : String → Option α) : Event α → String → Option α
  | .put v      => Function.update cache (k.key (k.nameOf v)) (some v)
  | .delete key => Function.update cache (Kind.lastPart key) none

def change (s : ClientCache α) (name : String) (value : Option α) (e : Event α) : ClientCache α :=
  { s with
    etcd := Function.update s.etcd name value
    last := some e
    events := if s.watching then s.events ++ [e] else s.events }

-- `reloadUserCache` and `reloadRoleCache`, without anything in between
def reload (s : ClientCache α) (name : String) : ClientCache α :=
  match s.etcd name with
  | some v => { s with cache := Function.update s.cache name (some v) }
  | none   => s

-- `UserByCache` and `RoleByCache`, when etcd answers
def byCache (s : ClientCache α) (name : String) : Option α :=
  match s.cache name with
  | some v => some v
  | none   => (s.reload name).cache name

inductive Action (α : Type)
  -- the user or role is created or updated
  | put (value : α)
  | delete (name : String)
  -- a change under another prefix
  | other
  -- the watch starts; `got` says if the current revision has been read before
  | watch (got : Bool)
  -- it ends, and what has not been handled is lost
  | cancel
  | deliver
  -- a lookup that does not find the name asks etcd
  | query (name : String) (got : Bool)
  -- and sets what it was told
  | set (i : Nat)

def step (s : ClientCache α) : Action α → Option (ClientCache α)
  | .put v =>
    if Kind.Plain (k.nameOf v) then some (s.change (k.nameOf v) (some v) (.put v)) else none
  | .delete name =>
    match s.etcd name with
    | some _ => some (s.change name none (.delete (k.key name)))
    | none   => none
  | .other => some { s with last := none }
  | .watch got =>
    -- from the revision of the latest change, so that this change is sent again
    if s.watching then none
    else some { s with watching := true, events := s.events ++ if got then s.last.toList else [] }
  | .cancel => if s.watching then some { s with watching := false, events := [] } else none
  | .deliver =>
    match s.events with
    | e :: events => some { s with cache := handle k s.cache e, events }
    | []          => none
  | .query name got =>
    match s.cache name with
    | some _ => none
    | none   =>
      match s.etcd name with
      | some v => some { s with reloads := if got then s.reloads ++ [(name, v)] else s.reloads }
      | none   => some s
  | .set i =>
    match s.reloads[i]? with
    | some (name, v) =>
      some { s with
        cache := Function.update s.cache name (some v)
        reloads := s.reloads.eraseIdx i }
    | none => none

end ClientCache
