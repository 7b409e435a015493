import RolodexDns.IterativeResolver

/-! Runs that compute: lookups executed one after another against a network that is a function of
the query. Each is one of the runs of the resolver. -/
namespace RolodexDns.ResolverExecution
open DomainNames DnsRecords ValidationVerdicts ExpiringMaps ResolverWorld ResponseReading List
open IterativeResolver TaskPools DenialChains

/-- A network that answers every query the same way each time. -/
abbrev Network := IpAddr → OutQuery → Option Message

/-- Performs an operation: servers are tried as listed, ids are zero and the wall clock stands. -/
def respond (cfg : Config) (net : Network) (now : UInt32) (w : World) : (o : Op) → Res o × World
  | .recordGet n t =>
    let (r,c) := w.records.getWithProof cfg.lib w.clock n t
    (r,{ w with records := c })
  | .recordInsert n t rs secure =>
    ((),{ w with records := w.records.insertWithProof cfg.lib cfg.defaultTtl w.clock n t rs secure })
  | .keyGet z =>
    let (e,c) := ExpiringMap.get w.keys w.clock z
    (e.map Timed.value,{ w with keys := c })
  | .keyInsert z state ttl => ((),{ w with keys := w.keys.insert w.clock z state ttl })
  | .delegationMatch n =>
    let (r,c) := w.delegations.bestMatch w.clock n
    (r,{ w with delegations := c })
  | .delegationInsert z servers ttl =>
    ((),{ w with delegations := w.delegations.insert cfg.delegationTtl w.clock z servers ttl })
  | .delegationInvalidate z => ((),{ w with delegations := ExpiringMap.erase w.delegations z })
  | .usableRoots servers => (w.health.usableRoots w.clock servers,w)
  | .orderServers servers => (servers.filter IpAddr.isV4++servers.filter fun s => !s.isV4,w)
  | .randomId => ((0 : UInt16),w)
  | .sendUdp server query => (net server query,w)
  | .sendTcp server query => (net server query,w)
  | .noteSuccess s => ((),{ w with health := w.health.noteSuccess w.clock s })
  | .noteFailure s => ((),{ w with health := w.health.noteFailure cfg.backoffBase w.clock s })
  | .blameRoot s => ((),{ w with health := w.health.blameRoot cfg.blameBase cfg.blameCap w.clock s })
  | .clearBlame s => ((),{ w with health := w.health.clearBlame s })
  | .swapPrimed => (w.primed,{ w with primed := true })
  | .nowSecs => (some now,w)

theorem respond_acts (cfg : Config) (net : Network) (now : UInt32) (w : World) (o : Op) :
    acts cfg w o (respond cfg net now w o).1 (respond cfg net now w o).2 := by
  cases o with
  | keyGet z => exact ⟨_,rfl,rfl,rfl⟩
  | orderServers servers => exact ⟨⟨_,_,rfl,List.Perm.refl _,List.Perm.refl _⟩,rfl⟩
  | recordGet n t | delegationMatch n | usableRoots servers | swapPrimed => exact ⟨rfl,rfl⟩
  | _ => exact rfl

abbrev ResolverLog := List ResolverEvent

def runJobs (cfg : Config) (now : UInt32) : List (Network × Job) → World → ResolverLog → World × ResolverLog
  | [], w, log => (w,log)
  | (net,job)::jobs, w, log =>
    let (outcome,w',events) := execute (respond cfg net now) (Job.program cfg job) w
    runJobs cfg now jobs w' (log++[.started job]++events++[.finished job outcome])

theorem runJobs_run (cfg : Config) (now : UInt32) (jobs : List (Network × Job)) (w : World)
    (log : ResolverLog) :
    Run (resolver cfg) ⟨w,[],log⟩
      ⟨(runJobs cfg now jobs w log).1,[],(runJobs cfg now jobs w log).2⟩ := by
  induction jobs generalizing w log with
  | nil => exact Relation.ReflTransGen.refl
  | cons entry jobs ih =>
    obtain ⟨net,job⟩ := entry
    exact Relation.ReflTransGen.trans
      (run_execute (S := resolver cfg) (respond_acts cfg net now) job w log) (ih _ _)

inductive EventOf (cfg : Config) (now : UInt32) (net : Network) (job : Job) :
    ResolverEvent → Prop
  | started : EventOf cfg now net job (.started job)
  | performed (w : World) (o : Op) : EventOf cfg now net job (.performed o (respond cfg net now w o).1)
  | finished (outcome : JobResult) : EventOf cfg now net job (.finished job outcome)

variable {cfg : Config} {now : UInt32} {net : Network} {job : Job} {server : IpAddr} {q : OutQuery} {r : Option Message}

theorem EventOf.udp (h : EventOf cfg now net job (.performed (.sendUdp server q) r)) : net server q=r := by
  cases h
  rfl

theorem EventOf.tcp (h : EventOf cfg now net job (.performed (.sendTcp server q) r)) : net server q=r := by
  cases h
  rfl

theorem mem_runJobs {jobs : List (Network × Job)} {w : World} {log : ResolverLog}
    {e : ResolverEvent}
    (h : e∈(runJobs cfg now jobs w log).2) : e∈log ∨ ∃ entry∈jobs,EventOf cfg now entry.1 entry.2 e := by
  induction jobs generalizing w log with
  | nil => exact Or.inl h
  | cons entry jobs ih =>
    rcases ih h with hl | ⟨x,hx,he⟩
    · simp only [mem_append,mem_singleton] at hl
      rcases hl with ((hl | rfl) | hl) | rfl
      · exact Or.inl hl
      · exact Or.inr ⟨entry,mem_cons_self,.started⟩
      · obtain ⟨w',o,rfl⟩ := mem_execute hl
        exact Or.inr ⟨entry,mem_cons_self,.performed w' o⟩
      · exact Or.inr ⟨entry,mem_cons_self,.finished _⟩
    · exact Or.inr ⟨x,mem_cons_of_mem _ hx,he⟩

def results (log : ResolverLog) : List (Job × JobResult) :=
  log.filterMap fun
    | .finished job outcome => some (job,outcome)
    | _ => none

theorem mem_results {log : ResolverLog} {job : Job} {outcome : JobResult} :
    .finished job outcome∈log ↔ (job,outcome)∈results log := by
  simp only [results,mem_filterMap]
  constructor
  · intro h
    exact ⟨_,h,rfl⟩
  · rintro ⟨e,he,heq⟩
    cases e with
    | finished j a =>
      obtain ⟨rfl,rfl⟩ := heq
      exact he
    | _ => simp at heq

/-- A validating resolver with one root server and one anchor, over primitives that compute. -/
def toyConfig : Config where
  lib := toyLibrary
  anchors := some [⟨8,[1]⟩]
  rootHints := [.v4 1]
  defaultTtl := 300
  delegationTtl := 300
  backoffBase := 0
  blameBase := 0
  blameCap := 0

def toyKey (publicKey : List UInt8) : Dnskey := ⟨true,true,false,8,publicKey⟩

def toyRecord (owner : Name) (data : RData) : Record := ⟨owner,.IN,300,data⟩

/-- The signature of a zone's key over the RRset of an owner and a type. -/
def toySig (owner : Name) (rtype : RecordType) (signer : Name) (publicKey : List UInt8) : Record :=
  toyRecord owner (.rrsig ⟨rtype,8,owner.numLabels,300,10,0,0,signer,publicKey⟩)

def toyReply (q : OutQuery) (rcode : ResponseCode) (answers nameServers additionals : List Record) : Message :=
  ⟨q.id,rcode,false,false,false,[⟨q.name,q.qtype,q.qclass⟩],answers,nameServers,additionals⟩

def toyDnskeys (zone : Name) (publicKey : List UInt8) : List Record :=
  [toyRecord zone (.dnskey (toyKey publicKey)),toySig zone .DNSKEY zone publicKey]

def tld : Name := toyName [[116]]
def tldServer : Name := toyName [[110],[116]]
def tldHost : Name := toyName [[120],[116]]

def tldDs : List Record := [toyRecord tld (.ds ⟨0,8,0,[2]⟩),toySig tld .DS .root [1]]

end RolodexDns.ResolverExecution
