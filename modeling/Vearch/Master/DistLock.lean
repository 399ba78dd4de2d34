import Mathlib.Logic.Function.Basic
import Vearch.Lib.Machine

-- `master/store/distlock.go`: the callers of one lock and the keys that they have in etcd.

namespace DistLock

structure Key where
  lease : Nat
  rev   : Nat
  deriving DecidableEq

-- Where a caller is. `lease` is `dl.leaseID`, `rev` the revision of the transaction.
inductive Pc
  | idle
  -- in `newUniqueEphemeralKV`
  | granted (lease : Nat)
  -- there too, before the deletion of the key after a cancelled transaction
  | cleaning (lease : Nat)
  -- in `waitOnLastRev`, before its first read
  | asking (lease rev : Nat)
  -- before its second read
  | watching (lease rev : Nat)
  | blocked (lease rev : Nat)
  -- `waitOnLastRev` has failed, and `lock` revokes the lease
  | revoking (lease : Nat)
  -- `lock` has failed, and `Lock` calls `Unlock`; without a lease when none was granted
  | failed (lease : Option Nat)
  -- `Lock` has returned nil, and the caller has not unlocked
  | held (lease : Nat)
  deriving DecidableEq

end DistLock

structure DistLock (P : Type) where
  pc        : P → DistLock.Pc
  alive     : List Nat
  keys      : List DistLock.Key
  rev       : Nat
  nextLease : Nat

namespace DistLock

variable {P : Type} [DecidableEq P]

def initial : DistLock P where
  pc _ := .idle
  alive := []
  keys := []
  rev := 0
  nextLease := 1

inductive Outcome
  | ok
  | error (applied : Bool)
  deriving DecidableEq

inductive Action (P : Type)
  | grant (p : P) (o : Outcome)
  -- `cancelled`: the error is one of the context
  | txn (p : P) (o : Outcome) (cancelled : Bool)
  | clean (p : P) (o : Outcome)
  | get (p : P) (ok : Bool)
  | watchFails (p : P)
  -- an event of the watched key, or the end of the watch
  | wake (p : P)
  | done (p : P)
  | revoke (p : P) (o : Outcome)
  | expire (lease : Nat)

def goto (s : DistLock P) (p : P) (pc : Pc) : DistLock P :=
  { s with pc := Function.update s.pc p pc }

def drop (s : DistLock P) (lease : Nat) : DistLock P :=
  { s with alive := s.alive.filter (· ≠ lease), keys := s.keys.filter (·.lease ≠ lease) }

def newLease (s : DistLock P) : DistLock P :=
  { s with alive := s.nextLease :: s.alive, nextLease := s.nextLease + 1 }

def putKey (s : DistLock P) (lease : Nat) : DistLock P :=
  { s with keys := ⟨lease, s.rev + 1⟩ :: s.keys, rev := s.rev + 1 }

def delKey (s : DistLock P) (lease : Nat) : DistLock P :=
  { s with keys := s.keys.filter (·.lease ≠ lease), rev := s.rev + 1 }

def First (s : DistLock P) (rev : Nat) : Prop :=
  ∀ k ∈ s.keys, rev ≤ k.rev

instance (s : DistLock P) (rev : Nat) : Decidable (s.First rev) :=
  inferInstanceAs (Decidable (∀ _ ∈ _, _))

def Outcome.applied : Outcome → Bool
  | ok            => true
  | error applied => applied

def step (s : DistLock P) : Action P → Option (DistLock P)
  | .grant p o =>
    match s.pc p, o with
    | .idle, .ok            => some (s.newLease.goto p (.granted s.nextLease))
    | .idle, .error applied => some ((if applied then s.newLease else s).goto p (.failed none))
    | _, _                  => none
  | .txn p o cancelled =>
    match s.pc p with
    | .granted l =>
      -- a key can only be put under a lease that is alive, and once
      let possible := l ∈ s.alive ∧ ∀ k ∈ s.keys, k.lease ≠ l
      match o with
      | .ok => if possible then some ((s.putKey l).goto p (.asking l (s.rev + 1))) else none
      | .error applied =>
        if applied ∧ ¬ possible then none
        else
          some ((if applied then s.putKey l else s).goto p
            (if cancelled then .cleaning l else .failed (some l)))
    | _ => none
  | .clean p o =>
    match s.pc p with
    | .cleaning l => some ((if o.applied then s.delKey l else s).goto p (.failed (some l)))
    | _           => none
  | .get p ok =>
    match s.pc p with
    | .asking l r =>
      some (s.goto p (if ok then if s.First r then .held l else .watching l r else .revoking l))
    | .watching l r =>
      some (s.goto p (if ok then if s.First r then .held l else .blocked l r else .revoking l))
    | _ => none
  | .watchFails p =>
    match s.pc p with
    | .watching l _ => some (s.goto p (.revoking l))
    | _             => none
  | .wake p =>
    match s.pc p with
    | .blocked l r => some (s.goto p (.asking l r))
    | _            => none
  | .done p =>
    match s.pc p with
    | .blocked l _ => some (s.goto p (.revoking l))
    | _            => none
  | .revoke p o =>
    match s.pc p with
    | .revoking l =>
      if o = .ok ∧ l ∉ s.alive then none
      else some ((if o.applied then s.drop l else s).goto p (.failed (some l)))
    | .failed (some l) =>
      -- the result of `Unlock` is the result of `Lock`
      match o with
      | .ok            => if l ∈ s.alive then some ((s.drop l).goto p (.held l)) else none
      | .error applied => some ((if applied then s.drop l else s).goto p .idle)
    | .failed none =>
      match o with
      | .ok      => none
      | .error _ => some (s.goto p .idle)
    | .held l =>
      if o = .ok ∧ l ∉ s.alive then none
      else some ((if o.applied then s.drop l else s).goto p .idle)
    | _ => none
  | .expire l => if l ∈ s.alive then some (s.drop l) else none

end DistLock
