import RolodexDns.ResolverCaches
import RolodexDns.SignatureValidation
import RolodexDns.TaskPools

/-! What lookups share and how they touch it: the caches, the health of the nameservers, the clocks
and the network. The network may answer a query with anything or with nothing. -/
namespace RolodexDns.ResolverWorld
open DomainNames DnsRecords ValidationVerdicts SignatureValidation ExpiringMaps ResolverCaches
open ProgramTrees

/-- What validation rests on; it is on when there are anchors. -/
structure Validation where
  lib : Library
  anchors : Option (List Anchor)

def Validation.validating (val : Validation) : Bool := val.anchors.isSome

structure Config extends Validation where
  rootHints : List IpAddr
  defaultTtl : Nat
  delegationTtl : Nat
  backoffBase : Nat
  blameBase : Nat
  blameCap : Nat

def maxFailureBackoff : Nat := secs 300

structure ServerHealth where
  consecutiveFailures : Nat
  retryAfter : Nat
  blameCount : Nat
  blamedUntil : Option Nat

def ServerHealth.clean (now : Nat) : ServerHealth := ⟨0,now,0,none⟩

def ServerHealth.isEmpty (h : ServerHealth) : Bool :=
  h.consecutiveFailures=0 && h.blameCount=0 && h.blamedUntil.isNone

abbrev HealthMap := List (IpAddr × ServerHealth)

namespace HealthMap

variable (m : HealthMap) (now : Nat) (server : IpAddr)

def entry : Option ServerHealth :=
  (m.find? fun e => e.1=server).map Prod.snd

def set (h : ServerHealth) : HealthMap :=
  (server,h)::m.filter fun e => e.1≠server

def modify (f : ServerHealth → ServerHealth) : HealthMap :=
  match m.entry server with
  | none => m
  | some h => if (f h).isEmpty then m.filter fun e => e.1≠server else m.set server (f h)

def noteSuccess : HealthMap :=
  m.modify server fun h => { h with consecutiveFailures := 0, retryAfter := now }

/-- The `n`-th offence in a row waits twice as long as the one before, up to the cap. -/
def backoff (base cap n : Nat) : Nat := min (base*2^min (n - 1) 16) cap

def noteFailure (base now : Nat) (server : IpAddr) : HealthMap :=
  let h := (m.entry server).getD (.clean now)
  let failures := h.consecutiveFailures+1
  m.set server { h with
    consecutiveFailures := failures, retryAfter := now+backoff base maxFailureBackoff failures }

def blameRoot (base cap now : Nat) (server : IpAddr) : HealthMap :=
  let h := (m.entry server).getD (.clean now)
  let count := h.blameCount+1
  m.set server { h with blameCount := count, blamedUntil := some (now+backoff base cap count) }

def clearBlame : HealthMap :=
  m.modify server fun h => { h with blameCount := 0, blamedUntil := none }

def blamedRoot : Bool :=
  ((m.entry server).bind ServerHealth.blamedUntil).any (now < ·)

/-- The roots not blamed; all of them when that leaves none. -/
def usableRoots (servers : List IpAddr) : List IpAddr :=
  let usable := servers.filter fun s => !m.blamedRoot now s
  if usable.isEmpty then servers else usable

end HealthMap

/-- An order in which servers may be tried: IPv4 first, each family as its ranking has it. -/
def IsOrdering (servers ordered : List IpAddr) : Prop :=
  ∃ v4 v6,ordered=v4++v6 ∧ v4.Perm (servers.filter IpAddr.isV4) ∧
    v6.Perm (servers.filter fun s => !s.isV4)

structure World where
  records : RecordCache
  keys : KeyCache
  delegations : DelegationCache
  health : HealthMap
  primed : Bool
  clock : Nat

/-- The world at startup: the delegations are those persisted earlier, if any. -/
def World.fresh (delegations : DelegationCache) (clock : Nat) : World := ⟨[],[],delegations,[],false,clock⟩

structure OutQuery where
  id : UInt16
  name : Name
  qtype : RecordType
  qclass : DnsClass
  dnssecOk : Bool
deriving DecidableEq

inductive Op where
  | recordGet (name : Name) (rtype : RecordType)
  | recordInsert (name : Name) (rtype : RecordType) (records : List Record) (secure : Bool)
  | keyGet (zone : Name)
  | keyInsert (zone : Name) (state : TrustState) (ttl : Nat)
  | delegationMatch (name : Name)
  | delegationInsert (zone : Name) (servers : List IpAddr) (ttl : Nat)
  | delegationInvalidate (zone : Name)
  | usableRoots (servers : List IpAddr)
  | orderServers (servers : List IpAddr)
  | randomId
  | sendUdp (server : IpAddr) (query : OutQuery)
  | sendTcp (server : IpAddr) (query : OutQuery)
  | noteSuccess (server : IpAddr)
  | noteFailure (server : IpAddr)
  | blameRoot (server : IpAddr)
  | clearBlame (server : IpAddr)
  | swapPrimed
  | nowSecs

/-- What each operation returns. A send returns the parsed reply, if one came in time. -/
def Res : Op → Type
  | .recordGet _ _ => Option (List Record × Bool)
  | .keyGet _ => Option TrustState
  | .delegationMatch _ => Option (Name × List IpAddr)
  | .usableRoots _ => List IpAddr
  | .orderServers _ => List IpAddr
  | .randomId => UInt16
  | .sendUdp _ _ => Option Message
  | .sendTcp _ _ => Option Message
  | .swapPrimed => Bool
  | .nowSecs => Option UInt32
  | _ => Unit

/-- The effect of an operation. The random id, the order of the servers, the wall clock and the
replies are not determined. -/
def acts (cfg : Config) (w : World) : (o : Op) → Res o → World → Prop
  | .recordGet n t, r, w' => (r,w'.records)=w.records.getWithProof cfg.lib w.clock n t ∧
      w'={ w with records := w'.records }
  | .recordInsert n t rs secure, _, w' => w'={ w with
      records := w.records.insertWithProof cfg.lib cfg.defaultTtl w.clock n t rs secure }
  | .keyGet z, r, w' => ∃ e,(e,w'.keys)=ExpiringMap.get w.keys w.clock z ∧
      r=e.map Timed.value ∧ w'={ w with keys := w'.keys }
  | .keyInsert z state ttl, _, w' => w'={ w with keys := w.keys.insert w.clock z state ttl }
  | .delegationMatch n, r, w' => (r,w'.delegations)=w.delegations.bestMatch w.clock n ∧
      w'={ w with delegations := w'.delegations }
  | .delegationInsert z servers ttl, _, w' => w'={ w with
      delegations := w.delegations.insert cfg.delegationTtl w.clock z servers ttl }
  | .delegationInvalidate z, _, w' => w'={ w with delegations := ExpiringMap.erase w.delegations z }
  | .usableRoots servers, r, w' => r=w.health.usableRoots w.clock servers ∧ w'=w
  | .orderServers servers, r, w' => IsOrdering servers r ∧ w'=w
  | .randomId, _, w' => w'=w
  | .sendUdp _ _, _, w' => w'=w
  | .sendTcp _ _, _, w' => w'=w
  | .noteSuccess s, _, w' => w'={ w with health := w.health.noteSuccess w.clock s }
  | .noteFailure s, _, w' => w'={ w with health := w.health.noteFailure cfg.backoffBase w.clock s }
  | .blameRoot s, _, w' => w'={ w with
      health := w.health.blameRoot cfg.blameBase cfg.blameCap w.clock s }
  | .clearBlame s, _, w' => w'={ w with health := w.health.clearBlame s }
  | .swapPrimed, r, w' => r=w.primed ∧ w'={ w with primed := true }
  | .nowSecs, _, w' => w'=w

/-- Time passes, and entries leave the caches by a flush or by a race. -/
structure Drifts (w w' : World) : Prop where
  clock : w.clock ≤ w'.clock
  records : w'.records⊆w.records
  keys : w'.keys⊆w.keys
  delegations : w'.delegations⊆w.delegations
  health : w'.health=w.health
  primed : w'.primed=w.primed

/-- A lookup: what it spends is its own query budget. -/
abbrev Lookup := Routine ResolveError Nat Op Res

def Lookup.perform (o : Op) : Lookup (Res o) := Routine.perform o

end RolodexDns.ResolverWorld
