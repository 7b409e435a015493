import RolodexDns.ResolverExecution
import RolodexDns.WalkHistories

/-! Root servers that lie. Each lie takes a server out of the root set for longer, until it tells the
truth; whether it can be reached at all is kept beside that in the same place, and neither disturbs
the other. What is found of a server is read off the log of a run. -/
namespace RolodexDns.RootBlame
open DomainNames DnsRecords ValidationVerdicts SignatureValidation ResolverWorld ResponseReading HealthMap
  IterativeResolver List
open ProgramTrees ProgramTraces HistoryContracts TaskPools LookupHistories WalkHistories ResolverExecution

/-- What is learnt of a server: it answered or not, and its keys of the root were wrong or right. -/
inductive Finding where
  | success (server : IpAddr) (now : Nat)
  | failure (server : IpAddr) (now : Nat)
  | invalid (server : IpAddr) (now : Nat)
  | validated (server : IpAddr)
deriving DecidableEq

section
variable (cfg : Config)

def noted (m : HealthMap) : Finding → HealthMap
  | .success server now => m.noteSuccess now server
  | .failure server now => m.noteFailure cfg.backoffBase now server
  | .invalid server now => m.blameRoot cfg.blameBase cfg.blameCap now server
  | .validated server => m.clearBlame server

/-- When the server lied since it last told the truth, the last time first. -/
def lies (server : IpAddr) (times : List Nat) : Finding → List Nat
  | .success _ _ | .failure _ _ => times
  | .invalid blamed now => if blamed=server then now::times else times
  | .validated cleared => if cleared=server then [] else times

def excluded (findings : List Finding) (now : Nat) (server : IpAddr) : Bool :=
  let times := findings.foldl (lies server) []
  times.head?.any fun last => now<last+min cfg.blameCap (cfg.blameBase*2^min (times.length - 1) 16)

end

/-- What is held against a server apart from silence. -/
def blameOf (m : HealthMap) (server : IpAddr) : Nat × Option Nat :=
  ((m.entry server).map fun h => (h.blameCount,h.blamedUntil)).getD (0,none)

variable {cfg : Config} {m : HealthMap} {s server : IpAddr} {now : Nat} (findings : List Finding)

theorem entry_remove : entry (m.filter fun e => e.1≠s) server=if s=server then none else m.entry server := by
  unfold entry
  rw [find?_filter]
  split_ifs with h
  · subst h
    simp
  · congr 2
    funext e
    by_cases he : e.1=server
    · simp [he,Ne.symm h]
    · simp [he]

theorem blameOf_set {h : ServerHealth} :
    blameOf (m.set s h) server=if s=server then (h.blameCount,h.blamedUntil) else blameOf m server := by
  unfold blameOf HealthMap.set
  split_ifs with heq
  · simp [entry,heq]
  · have hr := @entry_remove m s server
    rw [if_neg heq] at hr
    rw [← hr]
    simp [entry,heq]

theorem blameOf_modify {f : ServerHealth → ServerHealth} : blameOf (m.modify s f) server =
    if s=server then ((m.entry s).map fun h => ((f h).blameCount,(f h).blamedUntil)).getD (0,none) else
      blameOf m server := by
  unfold HealthMap.modify
  cases he : m.entry s with
  | none =>
    split_ifs with heq
    · simp [blameOf,← heq,he]
    · rfl
  | some h =>
    dsimp only
    split_ifs with hem heq heq
    · unfold blameOf
      rw [entry_remove,if_pos heq]
      simp_all [ServerHealth.isEmpty]
    · unfold blameOf
      rw [entry_remove,if_neg heq]
    · rw [blameOf_set,if_pos heq]
      rfl
    · rw [blameOf_set,if_neg heq]

/-- What has to be held against a server that lied at these times. -/
def standing (cfg : Config) (times : List Nat) : Nat × Option Nat :=
  (times.length,times.head?.map (· + backoff cfg.blameBase cfg.blameCap times.length))

theorem blameOf_noted {times : List Nat} (finding : Finding) (h : blameOf m server=standing cfg times) :
    blameOf (noted cfg m finding) server=standing cfg (lies server times finding) := by
  have hb {s : IpAddr} {now : Nat} : (((m.entry s).getD (.clean now)).blameCount,
    ((m.entry s).getD (.clean now)).blamedUntil)=blameOf m s := by
    unfold blameOf
    cases m.entry s <;> rfl
  cases finding with
  | success s now =>
    rw [noted,HealthMap.noteSuccess,blameOf_modify]
    split_ifs with heq
    · exact heq ▸ h
    · exact h
  | failure s now =>
    rw [noted,HealthMap.noteFailure,blameOf_set]
    split_ifs with heq
    · exact hb.trans (heq ▸ h)
    · exact h
  | invalid s now =>
    rw [noted,HealthMap.blameRoot,blameOf_set,lies]
    split_ifs with heq
    · have hc : ((m.entry s).getD (.clean now)).blameCount=times.length := congrArg Prod.fst (hb.trans (heq ▸ h))
      simp [standing,hc]
    · exact h
  | validated s =>
    rw [noted,HealthMap.clearBlame,blameOf_modify,lies]
    split_ifs with heq
    · cases m.entry s <;> rfl
    · exact h

theorem blameOf_findings :
    blameOf (findings.foldl (noted cfg) []) server=standing cfg (findings.foldl (lies server) []) := by
  induction findings using reverseRecOn with
  | nil => rfl
  | append_singleton findings finding ih =>
    rw [foldl_concat,foldl_concat]
    exact blameOf_noted finding ih

theorem blamedRoot_eq : (findings.foldl (noted cfg) []).blamedRoot now server=excluded cfg findings now server := by
  have hu := congrArg Prod.snd (@blameOf_findings cfg server findings)
  have hr : (blameOf (findings.foldl (noted cfg) []) server).2 =
      ((findings.foldl (noted cfg) []).entry server).bind ServerHealth.blamedUntil := by
    unfold blameOf
    cases entry (findings.foldl (noted cfg) []) server <;> rfl
  unfold blamedRoot excluded
  rw [← hr,hu]
  simp [standing,backoff,min_comm,Option.any_map]

theorem usableRoots_eq (servers : List IpAddr) : (findings.foldl (noted cfg) []).usableRoots now servers =
    if servers.all (excluded cfg findings now) then servers else servers.filter (!excluded cfg findings now ·) := by
  unfold HealthMap.usableRoots
  simp only [blamedRoot_eq,List.isEmpty_iff,List.filter_eq_nil_iff,List.all_eq_true]
  simp

section

/-- What an event tells of a server, with the time of the event. -/
def finding : Nat × ResolverEvent → Option Finding
  | (now,.performed (.noteSuccess server) _) => some (.success server now)
  | (now,.performed (.noteFailure server) _) => some (.failure server now)
  | (now,.performed (.blameRoot server) _) => some (.invalid server now)
  | (_,.performed (.clearBlame server) _) => some (.validated server)
  | _ => none

theorem health_acts {w w' : World} {o : Op} {r : Res o} (h : acts cfg w o r w') :
    w'.health=([(w.clock,.performed o r)].filterMap finding).foldl (noted cfg) w.health := by
  cases o with
  | keyGet zone =>
    obtain ⟨_,-,-,h⟩ := h
    rw [h]
    rfl
  | recordGet name rtype | delegationMatch name | usableRoots servers | orderServers servers | swapPrimed =>
    rw [h.2]
    rfl
  | _ =>
    rw [show w'=_ from h]
    rfl

variable {delegations : ResolverCaches.DelegationCache} {clock : Nat} {P : ResolverPool}
  {history : List (Nat × ResolverEvent)}

/-- The health of the servers is what was found of them. -/
theorem health_eq (h : Stamped (resolver cfg) World.clock (.fresh delegations clock) P history) :
    P.world.health=(history.filterMap finding).foldl (noted cfg) [] := by
  induction h with
  | initial => rfl
  | @step P P' history new _ hs hn ih =>
    rw [filterMap_append,foldl_append,← ih]
    cases hs with
    | start w tasks log job =>
      rw [← append_cancel_left hn]
      rfl
    | act before after log job next ha =>
      rw [← append_cancel_left hn]
      exact health_acts ha
    | finish w before after log job a =>
      rw [← append_cancel_left hn]
      rfl
    | abandon w before after log task =>
      rw [self_eq_append_right.mp hn]
      rfl
    | drift tasks log hd =>
      rw [self_eq_append_right.mp hn]
      exact hd.health

/-- What a job may do: a lookup as a lookup, priming as priming. -/
def jobDiscipline (cfg : Config) : Job → Discipline Nat Op Res
  | .resolve hints _ _ _ =>
    let cfg := { cfg with rootHints := hints }
    discipline cfg (queryBudget cfg) (lookupInserts cfg)
  | .primeRoots hints _ => discipline { cfg with rootHints := hints } maxQueriesPerResolution primingInserts

theorem job_keeps (job : Job) : Keeps (jobDiscipline cfg job) [] (Job.program cfg job) fun _ _ => True := by
  cases job with
  | resolve hints name qtype qclass =>
    exact (resolve_keeps { cfg with rootHints := hints } name qtype qclass).bind fun _ _ _ _ => trivial
  | primeRoots hints qclass =>
    refine Keeps.bind (primeRoots_obeys maxQueriesPerResolution ?_) fun _ _ _ _ => trivial
    exact (Nat.zero_add _).le

theorem job_onCourse (h : Run (resolver cfg) (.initial (.fresh delegations clock)) P) :
    OnCourse (jobDiscipline cfg) (fun _ _ _ => True) P := by
  refine Run.onCourse job_keeps (fun job w o r w' ha => ?_) h
  cases job <;> exact ⟨w,w',ha⟩

end

section
variable {servers : List IpAddr} {name : Name} {qtype : RecordType} {qclass : DnsClass} {anchors : List Anchor}
  {budget left : Nat} {log : LookupLog}

def isExchange : Op → Bool
  | .randomId | .orderServers _ | .sendUdp _ _ | .sendTcp _ _ | .noteSuccess _ | .noteFailure _ => true
  | _ => false

theorem tryServers_exchanges {query : OutQuery} :
    Routine.Ensures ⟨fun o => isExchange o=true,fun _ _ => True⟩ (tryServers query servers) fun _ => True := by
  induction servers with
  | nil => exact Routine.ensures_throw
  | cons server servers ih =>
    refine Routine.Ensures.bind (Q := fun _ => True) (fun _ _ _ => trivial) fun claimed _ => ?_
    split
    · rw [queryOne_eq]
      refine Routine.Ensures.bind (Q := fun _ => True) (Routine.ensures_step rfl fun reply _ => ?_) fun reply _ => ?_
      · split
        · rw [queryTcp_eq]
          exact Routine.ensures_step rfl fun _ _ => Routine.ensures_pure trivial
        · exact Routine.ensures_pure trivial
      · cases reply with
        | none => exact Routine.ensures_step rfl fun _ _ => ih
        | some msg => exact Routine.ensures_step rfl fun _ _ => Routine.ensures_pure trivial
    · exact Routine.ensures_throw

theorem queryServers_exchanges {r : Except ResolveError Answered}
    (h : Yields (queryServers cfg servers name qtype qclass budget) log (r,left)) : ∀ e∈log,isExchange e.1=true := by
  have ha : Routine.Ensures ⟨fun o => isExchange o=true,fun _ _ => True⟩ (queryServers cfg servers name qtype qclass)
    fun _ => True :=
    Routine.ensures_step rfl fun _ _ => Routine.ensures_step rfl fun _ _ => tryServers_exchanges
  exact h.demands (ha budget)

variable {outcome : Except ValidationError (List Dnskey)}

/-- What is neither said nor read from the clock checks no keys. -/
theorem rootKeysChecked_iff_of_quiet {log' : LookupLog}
    (hsu : log⊆log') (hq : ∀ e∈log',e∈log ∨ isSend e.1=false ∧ e.1≠.nowSecs) :
    RootKeysChecked cfg log' server outcome ↔ RootKeysChecked cfg log server outcome := by
  constructor
  · rintro ⟨anchors,m,now,ha,⟨id,qclass,dnssecOk,hse,hr⟩,hn,hc⟩
    have hs {e : (o : Op) × Res o} (he : e∈log') (hsn : isSend e.1=true) : e∈log :=
      (hq e he).resolve_right fun h => absurd (hsn.symm.trans h.1) (by decide)
    refine ⟨anchors,m,now,ha,⟨id,qclass,dnssecOk,?_,hr⟩,(hq _ hn).resolve_right fun h => h.2 rfl,hc⟩
    exact hse.imp (fun h => hs h rfl) fun h => ⟨hs h.1 rfl,h.2⟩
  · rintro ⟨anchors,m,now,ha,hh,hn,hc⟩
    exact ⟨anchors,m,now,ha,hh.mono hsu,hsu hn,hc⟩

/-- After one reply and one look at the clock, it is that reply that was checked, at that time. -/
theorem rootKeysChecked_iff {answered : Option Answered} {time : Option UInt32}
    (ha : cfg.anchors=some anchors) (hh : HearsOnly log .root .DNSKEY answered) (hl : ∀ e∈log,isExchange e.1=true) :
    RootKeysChecked cfg (log++[⟨.nowSecs,time⟩]) server outcome ↔ ∃ m now,answered=some ⟨m,server⟩ ∧ time=some now ∧
      validateDnskeyRrset cfg.lib .root m.answers m.answers (.anchors anchors) now=outcome := by
  have hno : HearsOnly [⟨.nowSecs,time⟩] .root .DNSKEY none := hearsOnly_of_quiet (by simp [isSend])
  constructor
  · rintro ⟨_,m,now,hs,hm,hn,hc⟩
    cases ha.symm.trans hs
    rcases mem_append.mp hn with hn | hn
    · cases hl _ hn
    · cases mem_singleton.mp hn
      exact ⟨m,now,((hh.append_right hno server .root .DNSKEY m).mp hm).2.2,rfl,hc⟩
  · rintro ⟨m,now,rfl,rfl,hc⟩
    exact ⟨anchors,m,now,ha,(hh.append_right hno server .root .DNSKEY m).mpr ⟨rfl,rfl,rfl⟩,mem_concat_self,hc⟩

/-- The keys that a fetch gives, or rejects, are those it checked. -/
theorem yields_fetchDnskeys {r : Except ResolveError (Except DnskeyError ValidatedKeys)} (ha : cfg.anchors=some anchors)
    (h : Yields (fetchDnskeys cfg qclass .root servers (.anchors anchors) budget) log (r,left)) :
    (∀ e∈log,e.1=.nowSecs ∨ isExchange e.1=true) ∧ ∃ fetched,r=.ok fetched ∧ ∀ server outcome,
      RootKeysChecked cfg log server outcome ↔ (∃ e,fetched=.error (.invalid server e) ∧ outcome=.error e) ∨
        ∃ validated,fetched=.ok validated ∧ validated.server=server ∧ outcome=.ok validated.keys := by
  rcases yields_bind_iff.mp h with ⟨reply,s,asking,rest,has,hr,rfl⟩ | ⟨e,s,has,-⟩
  · obtain ⟨reply',s',hq,heq⟩ := yields_attempt_iff.mp has
    cases heq
    have hh := hears_queryServers hq
    have hec := queryServers_exchanges hq
    cases reply with
    | error e =>
      obtain ⟨rfl,heq⟩ := yields_pure_iff.mp hr
      cases heq
      rw [append_nil]
      refine ⟨fun e he => .inr (hec e he),_,rfl,fun server outcome => ⟨?_,by simp⟩⟩
      rintro ⟨_,m,_,-,hm,-⟩
      exact absurd hm (hearsOnly_none.mp hh _ _ _ _)
    | ok answered =>
      obtain ⟨time,rest,hen,rfl⟩ := yields_step hr
      have hqu : ∀ e∈asking++[⟨.nowSecs,time⟩],e.1=.nowSecs ∨ isExchange e.1=true := by
        intro e he
        rcases mem_append.mp he with he | he
        · exact .inr (hec e he)
        · rw [mem_singleton.mp he]
          exact .inl rfl
      cases time with
      | none =>
        obtain ⟨rfl,heq⟩ := yields_pure_iff.mp hen
        cases heq
        refine ⟨hqu,_,rfl,fun server outcome => ?_⟩
        rw [rootKeysChecked_iff ha hh hec]
        simp
      | some now =>
        cases hc : validateDnskeyRrset cfg.lib .root answered.message.answers answered.message.answers
          (.anchors anchors) now <;>
          simp only [hc] at hen <;> obtain ⟨rfl,heq⟩ := yields_pure_iff.mp hen <;> cases heq <;>
          refine ⟨hqu,_,rfl,fun server outcome => (rootKeysChecked_iff ha hh hec).trans ?_⟩
        · constructor
          · rintro ⟨m,_,hm,⟨⟩,rfl⟩
            cases hm
            exact .inl ⟨_,rfl,hc⟩
          · rintro (⟨e,heq,rfl⟩ | ⟨_,heq,-⟩) <;> cases heq
            exact ⟨_,_,rfl,rfl,hc⟩
        · constructor
          · rintro ⟨m,_,hm,⟨⟩,rfl⟩
            cases hm
            exact .inr ⟨_,rfl,rfl,hc⟩
          · rintro (⟨e,heq,rfl⟩ | ⟨_,heq,rfl,rfl⟩) <;> cases heq
            exact ⟨_,_,rfl,rfl,hc⟩
  · obtain ⟨_,_,_,heq⟩ := yields_attempt_iff.mp has
    cases heq

/-- Of what surrounds a fetch only the blame or the clearing counts, and it follows from what was fetched. -/
theorem verdicts_of_fetch {first fetch rest : LookupLog} {fetched : Except DnskeyError ValidatedKeys}
    (hfe : ∀ e∈fetch,e.1=.nowSecs ∨ isExchange e.1=true)
    (hc : ∀ server outcome,RootKeysChecked cfg fetch server outcome ↔
      (∃ e,fetched=.error (.invalid server e) ∧ outcome=.error e) ∨
      ∃ validated,fetched=.ok validated ∧ validated.server=server ∧ outcome=.ok validated.keys)
    (hf : ∀ e∈first,isSend e.1=false ∧ e.1≠.nowSecs ∧ e.1≠.blameRoot server ∧ e.1≠.clearBlame server)
    (hr : ∀ e∈rest,isSend e.1=false ∧ e.1≠.nowSecs)
    (hb : ⟨.blameRoot server,()⟩∈rest ↔ ∃ e,fetched=.error (.invalid server e))
    (hcl : ⟨.clearBlame server,()⟩∈rest ↔ ∃ validated,fetched=.ok validated ∧ validated.server=server) :
    (⟨.blameRoot server,()⟩∈first++(fetch++rest) ↔ ∃ e,RootKeysChecked cfg (first++(fetch++rest)) server (.error e)) ∧
      (⟨.clearBlame server,()⟩∈first++(fetch++rest) ↔
        ∃ keys,RootKeysChecked cfg (first++(fetch++rest)) server (.ok keys)) := by
  have hs outcome : RootKeysChecked cfg (first++(fetch++rest)) server outcome ↔
    RootKeysChecked cfg fetch server outcome := by
    refine rootKeysChecked_iff_of_quiet (fun e he => mem_append_right _ (mem_append_left _ he)) fun e he => ?_
    rcases mem_append.mp he with he | he
    · exact .inr ⟨(hf e he).1,(hf e he).2.1⟩
    · exact (mem_append.mp he).imp_right (hr e)
  have hv {o : Op} {r : Res o} (ho : isExchange o=false) (hn : o≠.nowSecs) (hno : ∀ e∈first,e.1≠o) :
      (⟨o,r⟩ : (o : Op) × Res o)∈first++(fetch++rest) ↔ ⟨o,r⟩∈rest := by
    refine ⟨fun h => ?_,fun h => mem_append_right _ (mem_append_right _ h)⟩
    rcases mem_append.mp h with h | h
    · exact absurd rfl (hno _ h)
    · refine (mem_append.mp h).resolve_left fun h => (hfe _ h).elim hn fun h => ?_
      rw [ho] at h
      cases h
  constructor
  · refine (hv (o := .blameRoot server) rfl nofun fun e he => (hf e he).2.2.1).trans (hb.trans ?_)
    simp [hs,hc]
  · refine (hv (o := .clearBlame server) rfl nofun fun e he => (hf e he).2.2.2).trans (hcl.trans ?_)
    simp [hs,hc]

/-- A call blames and clears exactly the servers whose keys it checked. -/
theorem rootTrust_verdicts {r : Except ResolveError RootTrust} (ha : cfg.anchors=some anchors)
    (h : Yields (rootTrust cfg qclass anchors budget) log (r,left)) (server : IpAddr) :
    (⟨.blameRoot server,()⟩∈log ↔ ∃ e,RootKeysChecked cfg log server (.error e)) ∧
      (⟨.clearBlame server,()⟩∈log ↔ ∃ keys,RootKeysChecked cfg log server (.ok keys)) := by
  obtain ⟨known,rest,hre,rfl⟩ := yields_step h
  cases known with
  | some state =>
    obtain ⟨rfl,-⟩ := yields_pure_iff.mp hre
    have hn outcome : ¬ RootKeysChecked cfg [⟨.keyGet .root,some state⟩] server outcome := by
      rintro ⟨_,_,_,-,hh,-⟩
      exact not_heard_of_quiet (by simp [isSend]) hh
    constructor <;> refine iff_of_false (fun hm => ?_) fun hc => hn _ hc.choose_spec <;> cases mem_singleton.mp hm
  | none =>
    obtain ⟨cached,rest,hca,rfl⟩ := yields_step hre
    obtain ⟨usable,rest,hu,rfl⟩ := yields_step hca
    rcases yields_bind_iff.mp hu with ⟨fetched,s,fetch,rest,hf,he,rfl⟩ | ⟨e,s,hf,-⟩
    · obtain ⟨hq,_,⟨⟩,hc⟩ := yields_fetchDnskeys ha hf
      have hfi : ∀ e∈([⟨.keyGet .root,none⟩,⟨.delegationMatch .root,cached⟩,⟨.usableRoots _,usable⟩] : LookupLog),
          isSend e.1=false ∧ e.1≠.nowSecs ∧ e.1≠.blameRoot server ∧ e.1≠.clearBlame server := by simp [isSend]
      cases fetched with
      | ok validated =>
        obtain ⟨_,rest,hi,rfl⟩ := yields_step he
        obtain ⟨_,rest,hr,rfl⟩ := yields_step hi
        obtain ⟨rfl,-⟩ := yields_pure_iff.mp hr
        refine verdicts_of_fetch hq hc hfi (by simp [isSend]) (iff_of_false (fun h => ?_) (by simp)) ⟨fun h => ?_,?_⟩
        · rcases mem_pair.mp h with h | h <;> cases h
        · rcases mem_pair.mp h with h | h <;> cases h
          exact ⟨_,rfl,rfl⟩
        · rintro ⟨_,⟨⟩,rfl⟩
          exact mem_cons_self
      | error e =>
        cases e with
        | invalid blamed reason =>
          obtain ⟨_,rest,hr,rfl⟩ := yields_step he
          obtain ⟨rfl,-⟩ := yields_pure_iff.mp hr
          refine verdicts_of_fetch hq hc hfi (by simp [isSend]) ⟨fun h => ?_,?_⟩ (iff_of_false (fun h => ?_) (by simp))
          · cases mem_singleton.mp h
            exact ⟨_,rfl⟩
          · rintro ⟨_,⟨⟩⟩
            exact mem_cons_self
          · cases mem_singleton.mp h
        | unreachable e =>
          obtain ⟨rfl,-⟩ := yields_throw_iff.mp he
          exact verdicts_of_fetch hq hc hfi (forall_mem_nil _) (by simp) (by simp)
    · obtain ⟨-,_,heq,-⟩ := yields_fetchDnskeys ha hf
      cases heq

end

section
variable {delegations : ResolverCaches.DelegationCache} {clock : Nat} {P : ResolverPool}
  {history : List (Nat × ResolverEvent)}

/-- A server is held to its lies since it last told the truth, whatever else happened, and is left out
for as long as they are worth. It is a lie that it sent keys of the root that the anchors do not vouch
for, and the truth that it sent keys that they do: every call that asks for them says so of the server
that answered and of no other, and nothing else does. -/
theorem blame_escalates (hrun : Stamped (resolver cfg) World.clock (.fresh delegations clock) P history) :
    (∀ server,(blameOf P.world.health server).1=((history.filterMap finding).foldl (lies server) []).length) ∧
    (∀ now server,P.world.health.blamedRoot now server=excluded cfg (history.filterMap finding) now server) ∧
    (∀ now servers,P.world.health.usableRoots now servers =
      if servers.all (excluded cfg (history.filterMap finding) now) then servers
      else servers.filter (!excluded cfg (history.filterMap finding) now ·)) ∧
    (∀ before server after,P.log=before++.performed (.blameRoot server) ()::after →
      ∃ past e,RootKeysChecked cfg past server (.error e) ∧ ∀ x∈past,.performed x.1 x.2∈before) ∧
    (∀ before server after,P.log=before++.performed (.clearBlame server) ()::after →
      ∃ past keys,RootKeysChecked cfg past server (.ok keys) ∧ ∀ x∈past,.performed x.1 x.2∈before) ∧
    ∀ hints qclass anchors budget log out,cfg.anchors=some anchors →
      Yields (rootTrust { cfg with rootHints := hints } qclass anchors budget) log out → ∀ server,
        (⟨.blameRoot server,()⟩∈log ↔ ∃ e,RootKeysChecked cfg log server (.error e)) ∧
          (⟨.clearBlame server,()⟩∈log ↔ ∃ keys,RootKeysChecked cfg log server (.ok keys)) := by
  have hal := (job_onCourse hrun.run).allowed
  rw [health_eq hrun]
  refine ⟨fun server => congrArg Prod.fst (blameOf_findings _),fun _ _ => blamedRoot_eq _,fun _ _ =>
    usableRoots_eq _ _,?_,?_,?_⟩
  · intro before server after hs
    obtain ⟨job,past,ha,hp⟩ := hal before _ _ after hs
    cases job <;> exact ⟨past,ha.choose,ha.choose_spec,hp⟩
  · intro before server after hs
    obtain ⟨job,past,ha,hp⟩ := hal before _ _ after hs
    cases job <;> exact ⟨past,ha.choose,ha.choose_spec,hp⟩
  · intro hints qclass anchors budget log out han h server
    have hv := rootTrust_verdicts (by exact han) h server
    exact hv

def liarConfig : Config := { toyConfig with rootHints := [.v4 1,.v4 2], blameBase := 5, blameCap := 8 }

/-- Both servers give these keys for those of the root, and answer nothing else. -/
def keysNetwork (publicKey : List UInt8) : Network := fun _ q =>
  if q.qtype=.DNSKEY then some (toyReply q .NoError (toyDnskeys .root publicKey) [] []) else none

/-- The first server lies, so the second is asked; it lies too, so both are, and the first lies again
before it tells the truth. -/
theorem blame_escalates_truth : ∃ P history,Stamped (resolver liarConfig) World.clock (.fresh [] 0) P history ∧
    ((history.filterMap finding).foldl (lies (.v4 1)) []).length=0 ∧
      ((history.filterMap finding).foldl (lies (.v4 2)) []).length=1 ∧
    (P.log.filterMap fun e => finding (0,e)).take 8=[.success (.v4 1) 0,.invalid (.v4 1) 0,.success (.v4 2) 0,
      .invalid (.v4 2) 0,
      .success (.v4 1) 0,.invalid (.v4 1) 0,.success (.v4 1) 0,.validated (.v4 1)] ∧
    excluded liarConfig (history.filterMap finding) 4 (.v4 2)=true ∧
      excluded liarConfig (history.filterMap finding) 5 (.v4 2)=false := by
  obtain ⟨history,hr⟩ : ∃ history,Stamped (resolver liarConfig) World.clock (.fresh [] 0) _ history :=
    (runJobs_run liarConfig 5 (([[2],[2],[2],[1]] : List (List UInt8)).map fun key =>
      (keysNetwork key,.resolve liarConfig.rootHints tld .A .IN)) _ []).stamped
  obtain ⟨hc,he,-⟩ := blame_escalates hr
  refine ⟨_,history,hr,(hc _).symm.trans ?_,(hc _).symm.trans ?_,?_,(he _ _).symm.trans ?_,(he _ _).symm.trans ?_⟩
  all_goals decide +kernel

end

end RolodexDns.RootBlame
