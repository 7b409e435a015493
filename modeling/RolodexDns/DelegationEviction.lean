import RolodexDns.LookupHistories
import RolodexDns.ResolverExecution

/-! When a cached delegation is given up. A walk that started from it and ran out of servers evicts it,
wherever on its way the servers were missing. -/
namespace RolodexDns.DelegationEviction
open DomainNames DnsRecords ValidationVerdicts ResolverCaches ResolverWorld ResponseReading IterativeResolver
  ProgramTrees List
open ProgramTraces TaskPools LookupHistories DenialChains ResolverExecution

variable {cfg : Config}

section

/-- An exchange with the server that came to nothing: no reply, or one that does not belong to the query. A truncated
reply is no failure; the exchange goes on over TCP. -/
def lost (server : IpAddr) : ((o : Op) × Res o) → Bool
  | ⟨.sendUdp s q,(reply : Option Message)⟩ => decide (s=server) && match reply with
    | none => true
    | some m => decide (m.id≠q.id) || (!m.truncated && !validateQuestion m ⟨q.name,q.qtype,q.qclass⟩)
  | ⟨.sendTcp s q,(reply : Option Message)⟩ => decide (s=server) && match reply with
    | none => true
    | some m => decide (m.id≠q.id) || !validateQuestion m ⟨q.name,q.qtype,q.qclass⟩
  | _ => false

def Failed (log : LookupLog) (server : IpAddr) : Prop := log.any (lost server)=true

variable {server : IpAddr} {query : OutQuery} {budget left : Nat} {log first rest : LookupLog}

theorem Failed.append_left (h : Failed rest server) (first : LookupLog) : Failed (first++rest) server := by
  rw [Failed,any_append,Bool.or_eq_true]
  exact .inr h

theorem Failed.append_right (h : Failed first server) (rest : LookupLog) : Failed (first++rest) server := by
  rw [Failed,any_append,Bool.or_eq_true]
  exact .inl h

theorem failed_of_mem {e : (o : Op) × Res o} (hm : e∈log) (h : lost server e=true) : Failed log server :=
  any_eq_true.mpr ⟨e,hm,h⟩

theorem queryOne_failed (h : Yields (queryOne server query budget) log (.ok none,left)) : Failed log server := by
  obtain ⟨reply,hr,⟨rfl,ht⟩ | ⟨first,rfl,-⟩⟩ := yields_queryOne h
  all_goals have hn : none=matching query reply := Except.ok.inj hr
  · refine failed_of_mem mem_cons_self ?_
    cases reply with
    | none => simp [lost]
    | some m =>
      rw [Option.any_some,Bool.and_eq_true,decide_eq_true_eq] at ht
      by_cases hid : m.id=query.id
      · have hq : validateQuestion m ⟨query.name,query.qtype,query.qclass⟩=false := by
          simpa [matching,Option.filter_some,hid] using hn
        simp [lost,hq,Bool.not_eq_true _ ▸ not_and.mp ht hid]
      · simp [lost,hid]
  · refine failed_of_mem (mem_cons_of_mem _ mem_cons_self) ?_
    cases reply with
    | none => simp [lost]
    | some m => simpa [lost,matching,Option.filter_some,imp_iff_not_or] using hn

end

def Calm {α : Type} (m : Lookup α) : Prop :=
  ∀ budget log n left,¬ Yields (m budget) log (.error (.nameserversUnreachable n),left)

section
variable {α β : Type} {m : Lookup α} {f : α → Lookup β} {qclass : DnsClass} {name zone parent child : Name}
  {qtype : RecordType}
  {servers : List IpAddr} {trust : Option TrustState} {response : Message} {records : List Record}
  {inner : Inner}

theorem calm_pure (a : α) : Calm (pure a : Lookup α) := by
  intro budget log n left h
  cases (yields_pure_iff.mp h).2

theorem calm_throw {e : ResolveError} (he : ∀ n,e ≠ .nameserversUnreachable n) : Calm (throw e : Lookup α) := by
  intro budget log n left h
  cases (yields_throw_iff.mp h).2
  exact he n rfl

theorem calm_perform (o : Op) : Calm (Lookup.perform o) := by
  intro budget log n left h
  obtain ⟨r,-,hr⟩ := yields_perform_iff.mp h
  cases hr

theorem calm_attempt (m : Lookup α) : Calm (Routine.attempt m) := by
  intro budget log n left h
  obtain ⟨r,s,-,hr⟩ := yields_attempt_iff.mp h
  cases hr

theorem Calm.bind (h : Calm m) (hf : ∀ a,Calm (f a)) : Calm (m >>= f) := by
  intro budget log n left hy
  rcases yields_bind_iff.mp hy with ⟨a,s,first,rest,-,hrest,-⟩ | ⟨e,s,hm,heq⟩
  · exact hf a s rest n left hrest
  · cases heq
    exact h budget log n left hm

theorem calm_claim : Calm claim := by
  intro budget log n left h
  cases (Yields.pure_inv h).2

theorem calm_queryOne (server : IpAddr) (query : OutQuery) : Calm (queryOne server query) := by
  rw [queryOne_eq,queryTcp_eq]
  refine Calm.bind (calm_perform _) fun reply => ?_
  split
  · exact Calm.bind (calm_perform _) fun _ => calm_pure _
  · exact calm_pure _

theorem calm_fetchDnskeys {source : SignatureValidation.KeySource} :
    Calm (fetchDnskeys cfg qclass zone servers source) := by
  refine Calm.bind (calm_attempt _) fun r => ?_
  split
  · exact calm_pure _
  · refine Calm.bind (calm_perform _) fun now => ?_
    split
    · exact calm_pure _
    · split <;> exact calm_pure _

theorem calm_crossCut {keys : List Dnskey} {dsSection denialSection : List Record} {now : UInt32} :
    Calm (crossCut cfg qclass parent child keys dsSection denialSection servers now) := by
  unfold crossCut
  dsimp only
  split
  · split
    · exact Calm.bind (calm_perform _) fun _ => calm_pure _
    · exact calm_pure _
  · split
    · exact calm_pure _
    · split
      · exact Calm.bind (calm_perform _) fun _ => calm_pure _
      · refine Calm.bind calm_fetchDnskeys fun r => ?_
        split
        · exact Calm.bind (calm_perform _) fun _ => calm_pure _
        · exact calm_pure _

theorem calm_extendTrust {authority : List Record} :
    Calm (extendTrust cfg qclass parent child trust authority servers) := by
  unfold extendTrust
  split
  · exact calm_pure _
  · exact Calm.bind (calm_perform _) fun _ => calm_pure _
  · refine Calm.bind (calm_perform _) fun cached => ?_
    split
    · exact calm_pure _
    · refine Calm.bind (calm_perform _) fun now => ?_
      split
      · exact calm_pure _
      · refine Calm.bind calm_crossCut fun r => ?_
        split <;> exact calm_pure _

theorem calm_descendFrom {cuts : List Name} {state : TrustState} :
    Calm (descendFrom cfg qclass servers cuts parent state) := by
  induction cuts generalizing parent state with
  | nil => exact calm_pure _
  | cons cut cuts ih =>
    refine Calm.bind (calm_perform _) fun cached => ?_
    split
    · exact ih
    · split
      · exact Calm.bind (calm_perform _) fun _ => ih
      · refine Calm.bind (calm_perform _) fun now => ?_
        split
        · exact calm_pure _
        · refine Calm.bind (calm_attempt _) fun answered => ?_
          split
          · exact calm_pure _
          · refine Calm.bind calm_crossCut fun r => ?_
            split
            · exact ih
            · exact calm_pure _

theorem calm_keysFor : Calm (keysFor cfg qclass zone records trust servers) := by
  unfold keysFor
  split_ifs
  · exact calm_pure _
  · split
    · exact calm_pure _
    · refine Calm.bind ?_ fun r => ?_
      · unfold descendTo
        split
        · exact calm_pure _
        · exact calm_pure _
        · dsimp only
          split_ifs
          · exact calm_pure _
          · exact calm_pure _
          · exact calm_descendFrom
      · split <;> exact calm_pure _

theorem calm_validateWith {check : List Dnskey → UInt32 → Verdict} : Calm (validateWith trust check) := by
  unfold validateWith
  split
  · exact calm_pure _
  · refine Calm.bind (calm_perform _) fun now => ?_
    split <;> exact calm_pure _

theorem calm_answerStep : Calm (answerStep cfg qclass name qtype response records servers zone trust) := by
  refine Calm.bind calm_keysFor fun r => ?_
  split
  · exact calm_pure _
  · refine Calm.bind calm_validateWith fun v => ?_
    split_ifs
    · exact calm_pure _
    · exact Calm.bind (calm_perform _) fun _ => calm_pure _
    · exact calm_pure _

theorem calm_negativeStep {rcode : ResponseCode} {soa : Option Record} :
    Calm (negativeStep cfg qclass name qtype response rcode soa servers zone trust) := by
  refine Calm.bind calm_keysFor fun r => ?_
  split
  · exact calm_pure _
  · refine Calm.bind calm_validateWith fun v => ?_
    split_ifs <;> exact calm_pure _

theorem calm_insertGroups {groups : List SignatureValidation.Rrset} : Calm (insertGroups groups) := by
  induction groups with
  | nil => exact calm_pure _
  | cons g gs ih => exact Calm.bind (calm_perform _) fun _ => ih

/-- A nameserver's address is looked up on the side: what goes wrong there stays there. -/
theorem calm_nsAddressesFrom {targets : List Name} :
    Calm (nsAddressesFrom inner targets) := by
  induction targets with
  | nil => exact calm_pure _
  | cons ns targets ih =>
    refine Calm.bind (calm_perform _) fun cached => ?_
    split_ifs
    · exact calm_pure _
    · refine Calm.bind (calm_attempt _) fun found => ?_
      split_ifs
      · exact calm_pure _
      · exact ih

theorem calm_referralStep
    {glue : List Record} {targets visited : List Name} {ttl : Nat} :
    Calm (referralStep cfg qclass inner name response child glue targets ttl zone trust visited) := by
  unfold referralStep
  split_ifs
  · exact calm_throw nofun
  · exact calm_throw nofun
  · refine Calm.bind ?_ fun next => ?_
    · unfold delegationServers
      split_ifs
      · exact calm_pure _
      · exact calm_nsAddressesFrom
    · split_ifs
      · exact calm_throw nofun
      · refine Calm.bind calm_extendTrust fun r => ?_
        split
        · exact calm_pure _
        · exact Calm.bind (calm_perform _) fun _ => Calm.bind calm_insertGroups fun _ => calm_pure _

end

section
variable {qclass : DnsClass} {name : Name} {qtype : RecordType} {servers : List IpAddr} {budget left : Nat}
  {log : LookupLog} {n : Name}

theorem tryServers_failed {query : OutQuery}
    (h : Yields (tryServers query servers budget) log (.error (.nameserversUnreachable n),left)) :
    ∀ server∈servers,Failed log server := by
  induction servers generalizing budget log with
  | nil => exact forall_mem_nil _
  | cons server servers ih =>
    rcases yields_bind_iff.mp h with ⟨claimed,s,claiming,rest,-,hrest,rfl⟩ | ⟨e,s,hc,heq⟩
    · split_ifs at hrest
      · rcases yields_bind_iff.mp hrest with ⟨reply,s',first,rest',ho,hrest',rfl⟩ | ⟨e,s',ho,heq⟩
        · cases reply with
          | some m => exact absurd hrest' (Calm.bind (calm_perform _) (fun _ => calm_pure _) s' rest' n left)
          | none =>
            rcases yields_bind_iff.mp hrest' with ⟨_,s'',noting,rest'',-,hm,rfl⟩ | ⟨e,s'',hn,heq⟩
            · intro x hx
              rcases mem_cons.mp hx with rfl | hx
              · exact ((queryOne_failed ho).append_right _).append_left _
              · exact (((ih hm x hx).append_left _).append_left _).append_left _
            · cases heq
              exact absurd hn (calm_perform _ _ _ _ _)
        · cases heq
          exact absurd ho (calm_queryOne _ _ _ _ _ _)
      · cases (yields_throw_iff.mp hrest).2
    · cases heq
      exact absurd hc (calm_claim _ _ _ _)

def Unanswered (cfg : Config) (qclass : DnsClass) (name : Name) (qtype : RecordType) (servers : List IpAddr)
    (budget : Nat) (log : LookupLog) : Prop :=
  ∃ n left,Yields (queryServers cfg servers name qtype qclass budget) log (.error (.nameserversUnreachable n),left)

theorem Unanswered.failed (h : Unanswered cfg qclass name qtype servers budget log)
    (hor : ∀ servers ordered,⟨.orderServers servers,ordered⟩∈log → IsOrdering servers ordered) :
    ∀ server∈servers,Failed log server := by
  obtain ⟨n,left,h⟩ := h
  rcases yields_bind_iff.mp h with ⟨id,s,first,rest,hid,hrest,rfl⟩ | ⟨e,s,hid,heq⟩
  · rcases yields_bind_iff.mp hrest with ⟨ordered,s',first',rest',ho,ht,rfl⟩ | ⟨e,s',ho,heq⟩
    · obtain ⟨r,rfl,hr⟩ := yields_perform_iff.mp ho
      cases hr
      obtain ⟨v4,v6,rfl,hv4,hv6⟩ := hor servers ordered (by simp)
      intro server hs
      refine ((tryServers_failed ht server ?_).append_left _).append_left _
      cases hf : server.isV4 with
      | true => exact mem_append_left _ (hv4.mem_iff.mpr (mem_filter.mpr ⟨hs,hf⟩))
      | false =>
        exact mem_append_right _ (hv6.mem_iff.mpr (mem_filter.mpr ⟨hs,by rw [hf]; rfl⟩))
    · cases heq
      exact absurd ho (calm_perform _ _ _ _ _)
  · cases heq
    exact absurd hid (calm_perform _ _ _ _ _)

end

section
variable (cfg : Config) (qclass : DnsClass) (inner : Inner) (name : Name)
  (qtype : RecordType) (seen : List Name)

/-- A walk comes through an alias: the hop itself is in order, and its target is looked up next. -/
structure Passes (response : Message) (target : Name) (records : List Record) (servers : List IpAddr) (zone : Name)
    (trust : Option TrustState) (budget : Nat) (log : LookupLog) (left : Nat) : Prop where
  fresh : seen.any (· = target)=false
  short : seen.length < maxCnameChain
  valid : ∃ signer keys verdict between finding checking,
    Yields (keysFor cfg qclass zone records trust servers budget) finding (.ok (.ok (signer,keys)),between) ∧
    Yields (validateAnswer cfg name .CNAME records response signer keys between) checking (.ok verdict,left) ∧
    verdict.withholdsAnswer=false ∧ log=finding++checking

/-- A walk that was answered by the servers it started with and ran out of servers further on: those of a zone it was
referred to, or those it takes to look up the target of an alias. -/
inductive Adrift : Nat → List IpAddr → Name → Option TrustState → List Name → Nat → LookupLog → Prop where
  | stranded {hops : Nat} {servers next : List IpAddr} {zone child : Name} {trust state : Option TrustState}
      {visited targets : List Name} {budget first second ttl : Nat} {answered : Answered} {glue : List Record}
      {asking following round : LookupLog}
      (hasked : Yields (queryServers cfg servers name qtype qclass budget) asking (.ok answered,first))
      (hclass : classify answered.message qtype=.referral child glue targets ttl)
      (hfollowed : Yields (referralStep cfg qclass inner name answered.message child glue targets ttl zone
        trust visited first)
        following (.ok (.ok (next,state)),second))
      (hround : Unanswered cfg qclass name qtype next second round) :
      Adrift (hops+2) servers zone trust visited budget (asking++(following++round))
  | deeper {hops : Nat} {servers next : List IpAddr} {zone child : Name} {trust state : Option TrustState}
      {visited targets : List Name} {budget first second ttl : Nat} {answered : Answered} {glue : List Record}
      {asking following rest : LookupLog}
      (hasked : Yields (queryServers cfg servers name qtype qclass budget) asking (.ok answered,first))
      (hclass : classify answered.message qtype=.referral child glue targets ttl)
      (hfollowed : Yields (referralStep cfg qclass inner name answered.message child glue targets ttl zone
        trust visited first)
        following (.ok (.ok (next,state)),second))
      (hrest : Adrift hops next child state (child::visited) second rest) :
      Adrift (hops+1) servers zone trust visited budget (asking++(following++rest))
  | aliased {hops : Nat} {servers : List IpAddr} {zone target : Name} {trust : Option TrustState} {visited : List Name}
      {budget first second left : Nat} {answered : Answered} {records : List Record} {n : Name}
      {asking passing looking : LookupLog}
      (hasked : Yields (queryServers cfg servers name qtype qclass budget) asking (.ok answered,first))
      (hclass : classify answered.message qtype=.cname target records)
      (hpasses : Passes cfg qclass name seen answered.message target records servers zone trust first passing second)
      (hlooked : Yields (inner target qtype (seen++[target]) second) looking
        (.error (.nameserversUnreachable n),left)) :
      Adrift (hops+1) servers zone trust visited budget (asking++(passing++looking))

variable {cfg qclass inner name qtype seen} {servers : List IpAddr} {zone : Name} {trust : Option TrustState}
  {budget : Nat}
  {log : LookupLog}

theorem cnameStep_unreachable_iff {response : Message} {target : Name} {records : List Record} {n : Name} {left : Nat} :
    Yields (cnameStep cfg qclass inner name qtype seen response target records servers zone trust budget) log
        (.error (.nameserversUnreachable n),left) ↔
      ∃ passing looking between,Passes cfg qclass name seen response target records servers zone trust budget
        passing between ∧
        Yields (inner target qtype (seen++[target]) between) looking (.error (.nameserversUnreachable n),left) ∧
        log=passing++looking := by
  constructor
  · intro h
    unfold cnameStep at h
    split_ifs at h with hlo hln
    · cases (yields_throw_iff.mp h).2
    · cases (yields_throw_iff.mp h).2
    · rcases yields_bind_iff.mp h with ⟨found,b,finding,rest,hf,hrest,rfl⟩ | ⟨e,b,hf,heq⟩
      · split at hrest
        · cases (yields_pure_iff.mp hrest).2
        · rcases yields_bind_iff.mp hrest with ⟨v,b',checking,rest',hc,hrest',rfl⟩ | ⟨e,b',hc,heq⟩
          · split_ifs at hrest' with hw
            · cases (yields_pure_iff.mp hrest').2
            · rcases yields_bind_iff.mp hrest' with ⟨sub,b'',looking,rest'',-,he,rfl⟩ | ⟨e,b'',hl,heq⟩
              · dsimp only at he
                split_ifs at he
                · cases (yields_pure_iff.mp he).2
                · cases (yields_pure_iff.mp he).2
              · cases heq
                refine ⟨finding++checking,rest',b',⟨Bool.eq_false_iff.mpr hlo,by omega,?_⟩,hl,(append_assoc _ _ _).symm⟩
                exact ⟨_,_,v,b,finding,checking,hf,hc,by simpa using hw,rfl⟩
          · cases heq
            exact absurd hc (calm_validateWith _ _ _ _)
      · cases heq
        exact absurd hf (calm_keysFor _ _ _ _)
  · rintro ⟨passing,looking,between,⟨hfr,hs,signer,keys,v,b,finding,checking,hf,hc,hv,rfl⟩,hl,rfl⟩
    unfold cnameStep
    rw [if_neg (Bool.eq_false_iff.mp hfr),if_neg (by omega),append_assoc]
    refine yields_bind_iff.mpr (.inl ⟨_,b,finding,_,hf,?_,rfl⟩)
    refine yields_bind_iff.mpr (.inl ⟨v,between,checking,looking,hc,?_,rfl⟩)
    rw [if_neg (by simp [hv])]
    exact yields_bind_iff.mpr (.inr ⟨_,left,hl,rfl⟩)

variable {visited : List Name} {hops : Nat}

/-- A walk ends for want of servers in the round it starts with, or adrift. -/
theorem unanswered_or_adrift {n : Name} {left : Nat}
    (h : Yields (walk cfg qclass inner name qtype seen hops servers zone trust visited budget) log
      (.error (.nameserversUnreachable n),left)) :
    Unanswered cfg qclass name qtype servers budget log ∨
      Adrift cfg qclass inner name qtype seen hops servers zone trust visited budget log := by
  induction hops generalizing servers zone trust visited budget log with
  | zero => cases (yields_throw_iff.mp h).2
  | succ hops ih =>
    rcases yields_bind_iff.mp h with ⟨answered,first,asking,rest,hasked,hrest,rfl⟩ | ⟨e,s,hasked,heq⟩
    · right
      cases hclass : classify answered.message qtype with
      | answer records =>
        simp only [hclass] at hrest
        exact absurd hrest (Calm.bind calm_answerStep (fun _ => calm_pure _) _ _ _ _)
      | negative rcode soa =>
        simp only [hclass] at hrest
        exact absurd hrest (Calm.bind calm_negativeStep (fun _ => calm_pure _) _ _ _ _)
      | cname target records =>
        simp only [hclass] at hrest
        obtain ⟨passing,looking,between,hpasses,hlooked,rfl⟩ := cnameStep_unreachable_iff.mp hrest
        exact .aliased hasked hclass hpasses hlooked
      | referral child glue targets ttl =>
        simp only [hclass] at hrest
        rcases yields_bind_iff.mp hrest with ⟨step,second,following,rest',hfollowed,hrest',rfl⟩ | ⟨e,s,hfollowed,heq⟩
        · split at hrest'
          · cases (yields_pure_iff.mp hrest').2
          next next state =>
            cases hops with
            | zero => cases (yields_throw_iff.mp hrest').2
            | succ hops =>
              rcases ih hrest' with hround | ha
              · exact .stranded hasked hclass hfollowed hround
              · exact .deeper hasked hclass hfollowed ha
        · cases heq
          exact absurd hfollowed (calm_referralStep _ _ _ _)
    · cases heq
      exact .inl ⟨n,left,hasked⟩

theorem Unanswered.walk (h : Unanswered cfg qclass name qtype servers budget log) :
    ∃ n left,Yields (walk cfg qclass inner name qtype seen (hops+1) servers zone trust visited budget) log
      (.error (.nameserversUnreachable n),left) := by
  obtain ⟨n,left,h⟩ := h
  exact ⟨n,left,yields_bind_iff.mpr (.inr ⟨_,left,h,rfl⟩)⟩

theorem walk_of_referral {visited targets : List Name} {answered : Answered} {child : Name} {glue : List Record}
    {ttl first second : Nat} {next : List IpAddr} {state : Option TrustState} {asking following rest : LookupLog}
    {x : Except ResolveError (Resolution × List Name) × Nat}
    (hasked : Yields (queryServers cfg servers name qtype qclass budget) asking (.ok answered,first))
    (hclass : classify answered.message qtype=.referral child glue targets ttl)
    (hfollowed : Yields (referralStep cfg qclass inner name answered.message child glue targets ttl zone trust
      visited first)
      following (.ok (.ok (next,state)),second))
    (hrest : Yields (walk cfg qclass inner name qtype seen hops next child state (child::visited) second) rest x) :
    Yields (walk cfg qclass inner name qtype seen (hops+1) servers zone trust visited budget)
      (asking++(following++rest)) x := by
  refine yields_bind_iff.mpr (.inl ⟨answered,first,asking,_,hasked,?_,rfl⟩)
  simp only [hclass]
  exact yields_bind_iff.mpr (.inl ⟨_,second,following,rest,hfollowed,hrest,rfl⟩)

theorem Adrift.walk (h : Adrift cfg qclass inner name qtype seen hops servers zone trust visited budget log) :
    ∃ n left,Yields (walk cfg qclass inner name qtype seen hops servers zone trust visited budget) log
      (.error (.nameserversUnreachable n),left) := by
  induction h with
  | stranded hasked hclass hfollowed hround =>
    obtain ⟨n,left,hw⟩ := hround.walk
    exact ⟨n,left,walk_of_referral hasked hclass hfollowed hw⟩
  | deeper hasked hclass hfollowed _ ih =>
    obtain ⟨n,left,hw⟩ := ih
    exact ⟨n,left,walk_of_referral hasked hclass hfollowed hw⟩
  | @aliased hops servers zone target trust visited budget first second left answered records n asking passing looking
      hasked hclass hpasses hlooked =>
    refine ⟨n,left,yields_bind_iff.mpr (.inl ⟨answered,first,asking,_,hasked,?_,rfl⟩)⟩
    simp only [hclass]
    exact cnameStep_unreachable_iff.mpr ⟨passing,looking,second,hpasses,hlooked,rfl⟩

theorem Adrift.answered
    (h : Adrift cfg qclass inner name qtype seen hops servers zone trust visited budget log) :
    ∃ answered first asking rest,Yields (queryServers cfg servers name qtype qclass budget) asking
      (.ok answered,first) ∧
      log=asking++rest := by
  cases h with
  | stranded hasked _ _ _ | deeper hasked _ _ _ | aliased hasked _ _ _ => exact ⟨_,_,_,_,hasked,rfl⟩

end

section
variable {qclass : DnsClass} {levels budget left : Nat} {name zone : Name} {qtype : RecordType} {seen : List Name}
  {servers start : List IpAddr} {trust : Option TrustState} {head walked rest : LookupLog}
  {result : Except ResolveError (Resolution × List Name)} {out : Except ResolveError (Resolution × List Name) × Nat}

/-- How a call of `resolveInner` comes to start from the cache: nothing is held for the name, but a delegation is. -/
structure StartsWarm (cfg : Config) (name : Name) (qtype : RecordType) (budget : Nat) (zone : Name)
    (servers start : List IpAddr) (trust : Option TrustState) (head : LookupLog) : Prop where
  notArpa : isArpaSubtree name=false
  found : ∃ finding choosing,Yields (warmStart cfg name budget) finding (.ok (some (zone,servers,trust)),budget) ∧
    Yields (startServers (startZone cfg zone) servers budget) choosing (.ok start,budget) ∧
    head=⟨.recordGet name qtype,(none : Option (List Record × Bool))⟩::(finding++choosing)

/-- The walk of a call that starts from the cache. -/
def warmWalk (cfg : Config) (qclass : DnsClass) (levels : Nat) (name : Name) (qtype : RecordType)
    (seen : List Name) (zone : Name)
    (start : List IpAddr) (trust : Option TrustState) : Lookup (Resolution × List Name) :=
  walk cfg qclass (resolveInner cfg qclass levels) name qtype seen maxReferrals start (startZone cfg zone) trust []

def Evicts (zone : Name) (rest : LookupLog) : Prop := ∃ later,rest=⟨.delegationInvalidate zone,()⟩::later

/-- A call gives its delegation up exactly if its walk ended for want of servers. -/
theorem evicts_iff (hc : Yields (resolveInner cfg qclass (levels+1) name qtype seen budget) (head++(walked++rest)) out)
    (hs : StartsWarm cfg name qtype budget zone servers start trust head)
    (hw : Yields (warmWalk cfg qclass levels name qtype seen zone start trust budget) walked (result,left)) :
    Evicts zone rest ↔ ∃ n,result=.error (.nameserversUnreachable n) := by
  obtain ⟨har,finding,choosing,hfo,hch,rfl⟩ := hs
  unfold resolveInner resolveStep at hc
  rw [if_neg (by simp [har]),cons_append,append_assoc] at hc
  have hr : Yields (recordGet name qtype budget) [⟨.recordGet name qtype,(none : Option (List Record × Bool))⟩]
    (.ok none,budget) :=
    yields_perform_iff.mpr ⟨none,rfl,rfl⟩
  have hwa := yields_of_bind hr hc
  have hco := yields_of_bind hfo hwa
  have ha := yields_of_bind hch hco
  have hrest := yields_of_bind (yields_attempt_iff.mpr ⟨result,left,hw,rfl⟩) ha
  constructor
  · rintro ⟨later,rfl⟩
    split at hrest
    · cases (yields_pure_iff.mp hrest).1
    next n => exact ⟨n,rfl⟩
    · cases (yields_throw_iff.mp hrest).1
  · rintro ⟨n,rfl⟩
    rcases yields_bind_iff.mp hrest with ⟨_,s,first,later,hf,-,rfl⟩ | ⟨e,s,hf,-⟩
    · obtain ⟨_,rfl,-⟩ := yields_perform_iff.mp hf
      exact ⟨later,rfl⟩
    · obtain ⟨_,-,heq⟩ := yields_perform_iff.mp hf
      cases heq

/-- A call gives a cached delegation up only if every address held for the zone failed to answer in the
lookup, exactly if it does so in the walks that go adrift after an answer, and no address is passed over
that has not failed: a root that is blamed is not asked. Whatever goes wrong in the lookups of nameserver
addresses has no part in it. -/
theorem evicted_unanswered_iff (past : LookupLog)
    (hcall : Yields (resolveInner cfg qclass (levels+1) name qtype seen budget) (head++(walked++rest)) out)
    (hstart : StartsWarm cfg name qtype budget zone servers start trust head)
    (hwalk : Yields (warmWalk cfg qclass levels name qtype seen zone start trust budget) walked (result,left))
    (hordered : ∀ servers ordered,⟨.orderServers servers,ordered⟩∈walked → IsOrdering servers ordered) :
    (Evicts zone rest → ∀ server∈servers,Failed (past++(head++walked)) server) ↔
      (Adrift cfg qclass (resolveInner cfg qclass levels) name qtype seen maxReferrals start (startZone cfg zone)
        trust [] budget
          walked → ∀ server∈servers,Failed (past++(head++walked)) server) ∧
      (Unanswered cfg qclass name qtype start budget walked →
        ∀ server∈servers,server∉start → Failed (past++(head++walked)) server) := by
  rw [evicts_iff hcall hstart hwalk]
  have he {n : Name} {left' : Nat}
      (h : Yields (warmWalk cfg qclass levels name qtype seen zone start trust budget) walked
        (.error (.nameserversUnreachable n),left')) :
      result=.error (.nameserversUnreachable n) := by
    obtain ⟨-,heq,-⟩ := hwalk.cancel h (rfl : walked++[]=walked++[])
    cases heq
    rfl
  constructor
  · intro h
    constructor
    · intro ha
      obtain ⟨n,left',hy⟩ := ha.walk
      exact h ⟨n,he hy⟩
    · intro hu server hs _
      obtain ⟨n,left',hy⟩ := hu.walk
      exact h ⟨n,he hy⟩ server hs
  · rintro ⟨ha,hp⟩ ⟨n,rfl⟩ server hs
    rcases unanswered_or_adrift hwalk with hround | hd
    · by_cases hin : server∈start
      · exact ((hround.failed hordered server hin).append_left head).append_left past
      · exact hp hround server hs hin
    · exact ha hd server hs

end

/-- A resolver that does not validate, and the servers of a domain as it has them cached. -/
def plainConfig : Config := { toyConfig with anchors := none }

def cachedDelegation : DelegationCache := [(tld,⟨[.v4 2,.v4 4],1000⟩)]

def cachedReply (net : Network) (o : Op) : Res o := (respond plainConfig net 5 (.fresh cachedDelegation 0) o).1

def silence : Network := fun _ _ => none

def silentLog : LookupLog := (answeredBy (cachedReply silence) (resolveInner plainConfig .IN 1 tldHost .A [] 8)).1

def silentWalk : LookupLog :=
  (answeredBy (cachedReply silence) (warmWalk plainConfig .IN 0 tldHost .A [] tld [.v4 2,.v4 4] none 8)).1

theorem evicted_unanswered_silence : [IpAddr.v4 2,.v4 4].Forall (Failed (silentLog.take 2++silentWalk)) := by
  have hc : Yields (resolveInner plainConfig .IN 1 tldHost .A [] 8)
      (silentLog.take 2++(silentWalk++silentLog.drop (silentWalk.length+2))) _ :=
    yields_answeredBy (cachedReply silence) _
  have hst : StartsWarm plainConfig tldHost .A 8 tld [.v4 2,.v4 4] [.v4 2,.v4 4] none (silentLog.take 2) :=
    ⟨by decide,_,_,yields_answeredBy (cachedReply silence) _,yields_answeredBy (cachedReply silence) _,rfl⟩
  have hw : Yields (warmWalk plainConfig .IN 0 tldHost .A [] tld [.v4 2,.v4 4] none 8) silentWalk _ :=
    yields_answeredBy (cachedReply silence) _
  refine forall_iff_forall_mem.mpr ((evicted_unanswered_iff [] hc hst hw fun servers ordered hm => ?_).mpr
    ⟨?_,?_⟩ ⟨_,rfl⟩)
  · have heq : ordered=cachedReply silence (.orderServers servers) := mem_answeredBy hm
    rw [heq]
    exact ⟨_,_,rfl,List.Perm.refl _,List.Perm.refl _⟩
  · intro ha
    obtain ⟨answered,first,asking,rest,hasked,hl⟩ := ha.answered
    have hround := yields_answeredBy (cachedReply silence) (queryServers plainConfig [.v4 2,.v4 4] tldHost .A .IN 8)
    obtain ⟨-,hv,-⟩ := hround.cancel hasked ((append_nil _).trans hl)
    cases hv
  · exact fun _ server hs hn => absurd hs hn

/-- A domain whose server refers to the zone below, which has a server that does not answer. -/
def referringNetwork : Network := fun server q =>
  if server=.v4 2 then
    some (toyReply q .NoError [] [toyRecord tldHost (.ns (toyName [[110],[120],[116]]))]
      [toyRecord (toyName [[110],[120],[116]]) (.a 3)])
  else none

def referredRun : World × ResolverLog :=
  runJobs plainConfig 5 [(referringNetwork,.resolve [.v4 1] (toyName [[97],[120],[116]]) .A .IN)]
    (.fresh [(tld,⟨[.v4 2],1000⟩)] 0) []

def spared : ResolverEvent → Bool
  | .performed o r => !lost (.v4 2) ⟨o,r⟩
  | _ => true

def evicted : ResolverEvent → Bool
  | .performed (.delegationInvalidate z) _ => decide (z=tld)
  | _ => false

theorem mem_of_evicted {log : ResolverLog} (h : log.any evicted=true) :
    .performed (.delegationInvalidate tld) ()∈log := by
  obtain ⟨e,he,hev⟩ := any_eq_true.mp h
  unfold evicted at hev
  split at hev
  · obtain rfl := of_decide_eq_true hev
    exact he
  · cases hev

/-- The delegation of `t.` is given up in a lookup in which the one server of `t.` answered whatever it was asked. -/
theorem delegation_lost_downstream :
    ∃ P,Run (resolver plainConfig) (.initial (.fresh [(tld,⟨[.v4 2],1000⟩)] 0)) P ∧
      .performed (.delegationMatch (toyName [[97],[120],[116]])) (some (tld,[.v4 2]))∈P.log ∧
      .performed (.delegationInvalidate tld) ()∈P.log ∧ ∀ o r,.performed o r∈P.log → lost (.v4 2) ⟨o,r⟩=false := by
  have hr : Run (resolver plainConfig) (.initial (.fresh [(tld,⟨[.v4 2],1000⟩)] 0)) ⟨referredRun.1,[],referredRun.2⟩ :=
    runJobs_run plainConfig 5 _ _ _
  have hs : referredRun.2.all spared=true := by decide
  refine ⟨_,hr,?_,mem_of_evicted (by decide),fun o r hm => ?_⟩
  · exact mem_of_getElem? (show referredRun.2[2]?=some _ from rfl)
  · have he := all_eq_true.mp hs _ hm
    rwa [spared,Bool.not_eq_true'] at he

end RolodexDns.DelegationEviction
