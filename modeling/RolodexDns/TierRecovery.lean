import RolodexDns.AutoTiers
import RolodexDns.LookupHistories

/-! How the server comes back to the roots: by a probe that had the root zone's keys from a root server and
validated them, as long as no query that the roots have answered late is counted for them. -/
namespace RolodexDns.TierRecovery
open DomainNames DnsRecords ValidationVerdicts ResolverCaches ResolverWorld ResponseReading IterativeResolver
  ProgramTrees ProgramTraces List
open HistoryContracts WireMessages TracedSessions LookupHistories AutoTiers

section
variable {cfg : Config} {budget left : Nat} {log : LookupLog} {name : Name}
  {qtype : RecordType} {qclass : DnsClass} {servers : List IpAddr} {answered : Answered}

theorem queryServers_heard (h : Yields (queryServers cfg servers name qtype qclass budget) log (.ok answered,left)) :
    Heard log answered.server name qtype answered.message := (hears_queryServers h _ _ _ _).mpr ⟨rfl,rfl,rfl⟩

variable {inner : Inner} {seen : List Name} {res : Resolution × List Name}

def Fetched (log : LookupLog) (name : Name) (qtype : RecordType) : Prop := ∃ server m,Heard log server name qtype m

theorem Fetched.after {rest : LookupLog} (h : Fetched rest name qtype) (first : LookupLog) :
    Fetched (first++rest) name qtype := by
  obtain ⟨server,m,hh⟩ := h
  exact ⟨server,m,Heard.mono (subset_append_right _ _) hh⟩

theorem Fetched.before {first : LookupLog} (h : Fetched first name qtype) (rest : LookupLog) :
    Fetched (first++rest) name qtype := by
  obtain ⟨server,m,hh⟩ := h
  exact ⟨server,m,Heard.mono (subset_append_left _ _) hh⟩

/-- A walk that comes to an end has had a reply to its question. -/
theorem walk_fetched {hops : Nat} {zone : Name} {trust : Option TrustState} {visited : List Name}
    (h : Yields (walk cfg qclass inner name qtype seen hops servers zone trust visited budget) log (.ok res,left)) :
    Fetched log name qtype := by
  cases hops with
  | zero => cases (yields_throw_iff.mp h).2
  | succ hops =>
    obtain ⟨answered,s,first,rest,ha,-,rfl⟩ := yields_bind_ok h
    exact Fetched.before ⟨_,_,queryServers_heard ha⟩ rest

theorem rootTrust_failed {anchors : List SignatureValidation.Anchor} {v : Verdict}
    (h : Yields (rootTrust cfg qclass anchors budget) log (.ok (.failed v),left)) : v ≠ .secure := by
  obtain ⟨known,s₁,first₁,rest₁,-,h₁,rfl⟩ := yields_bind_ok h
  cases known with
  | some state => cases (yields_pure_iff.mp h₁).2
  | none =>
    obtain ⟨cached,s₂,first₂,rest₂,-,h₂,rfl⟩ := yields_bind_ok h₁
    obtain ⟨usable,s₃,first₃,rest₃,-,h₃,rfl⟩ := yields_bind_ok h₂
    obtain ⟨fetched,s₄,first₄,rest₄,-,h₄,rfl⟩ := yields_bind_ok h₃
    split at h₄
    · obtain ⟨_,s₅,first₅,rest₅,-,h₅,rfl⟩ := yields_bind_ok h₄
      obtain ⟨_,s₆,first₆,rest₆,-,h₆,rfl⟩ := yields_bind_ok h₅
      cases (yields_pure_iff.mp h₆).2
    · obtain ⟨_,s₅,first₅,rest₅,-,h₅,rfl⟩ := yields_bind_ok h₄
      cases (yields_pure_iff.mp h₅).2
      nofun
    · cases (yields_throw_iff.mp h₄).2

theorem walkFromRoots_fetched (h : Yields (walkFromRoots cfg qclass inner name qtype seen budget) log (.ok res,left))
    (hs : res.1.verdict=.secure) : Fetched log name qtype := by
  cases ha : cfg.anchors with
  | none =>
    simp only [walkFromRoots,ha] at h
    obtain ⟨usable,s,first,rest,-,hw,rfl⟩ := yields_bind_ok h
    exact (walk_fetched hw).after first
  | some anchors =>
    simp only [walkFromRoots,ha] at h
    obtain ⟨trust,s,first,rest,ht,hr,rfl⟩ := yields_bind_ok h
    split at hr
    · cases (yields_pure_iff.mp hr).2
      exact absurd hs (rootTrust_failed ht)
    · obtain ⟨usable,s',first',rest',-,hw,rfl⟩ := yields_bind_ok hr
      exact ((walk_fetched hw).after first').after first

/-- A lookup that comes out secure, with nothing cached for its question, has had a reply to it. -/
theorem resolveStep_fetched (ha : isArpaSubtree name=false)
    (h : Yields (resolveStep cfg qclass inner name qtype seen budget) log (.ok res,left)) (hs : res.1.verdict=.secure)
    (hm : ∀ found,⟨.recordGet name qtype,found⟩∈log → found=(none : Option (List Record × Bool))) :
    Fetched log name qtype := by
  unfold resolveStep at h
  rw [if_neg (by simp [ha])] at h
  obtain ⟨found,s₁,first₁,rest₁,hf,h₁,rfl⟩ := yields_bind_ok h
  obtain ⟨r,rfl,hr⟩ := yields_perform_iff.mp hf
  cases hr
  cases hm found (by simp)
  refine Fetched.after ?_ _
  obtain ⟨warm,s₂,first₂,rest₂,-,h₂,rfl⟩ := yields_bind_ok h₁
  refine Fetched.after ?_ _
  split at h₂
  · exact walkFromRoots_fetched h₂ hs
  · obtain ⟨start,s₃,first₃,rest₃,-,h₃,rfl⟩ := yields_bind_ok h₂
    obtain ⟨walked,s₄,first₄,rest₄,hw,h₄,rfl⟩ := yields_bind_ok h₃
    refine Fetched.after ?_ _
    obtain ⟨result,s₅,hy,heq⟩ := yields_attempt_iff.mp hw
    cases heq
    split at h₄
    · exact (walk_fetched hy).before rest₄
    · obtain ⟨_,s₆,first₆,rest₆,-,h₆,rfl⟩ := yields_bind_ok h₄
      exact ((walkFromRoots_fetched h₆ hs).after first₆).after first₄
    · cases (yields_throw_iff.mp h₄).2

theorem resolve_fetched {result : Resolution} (ha : isArpaSubtree name=false)
    (h : Yields (resolve cfg name qtype qclass) log (.ok result)) (hs : result.verdict=.secure)
    (hm : ∀ found,⟨.recordGet name qtype,found⟩∈log → found=(none : Option (List Record × Bool))) :
    Fetched log name qtype := by
  obtain ⟨⟨outcome,left⟩,first,rest,hi,he,rfl⟩ := Yields.bind_inv h
  obtain ⟨rfl,heq⟩ := Yields.pure_inv he
  cases outcome with
  | error e => cases heq
  | ok res =>
    cases heq
    rw [append_nil] at hm ⊢
    exact resolveStep_fetched ha hi hs hm

end

section
variable {α : Type} {p : Prog Op Res α} {log : AutoPast} {a : α}

theorem within_yields (h : Yields (within p) log (some a)) :
    ∃ trace,Yields p trace a ∧ ∀ e∈trace,(⟨.lookup e.1,e.2⟩ : (o : AutoOp) × AutoRes o)∈log := by
  induction p generalizing log with
  | pure b =>
    cases h
    exact ⟨[],.pure _,forall_mem_nil _⟩
  | op o next ih =>
    cases h with
    | @op _ _ _ _ expired rest =>
      cases expired with
      | true => cases rest
      | false =>
        cases rest with
        | @op _ _ _ _ r rest =>
          obtain ⟨trace,ht,hm⟩ := ih r rest
          have hop : Yields (.op o next) (⟨o,r⟩::trace) a := @Yields.op Op Res α o next trace a r ht
          refine ⟨_,hop,forall_mem_cons.mpr ⟨by simp,fun e he => ?_⟩⟩
          exact mem_cons_of_mem _ (mem_cons_of_mem _ (hm e he))

variable {cfg : AutoConfig}

/-- The root zone's keys were asked for, came in and are secure. -/
def FetchedSecurely (cfg : AutoConfig) (log : AutoPast) : Prop :=
  ∃ trace res,(∀ e∈trace,(⟨.lookup e.1,e.2⟩ : (o : AutoOp) × AutoRes o)∈log) ∧
    Yields (resolve cfg.resolver .root .DNSKEY .IN) trace (.ok res) ∧ res.verdict=.secure ∧ Fetched trace .root .DNSKEY

theorem fetchedSecurely_of_rootsValidate (hv : cfg.resolver.validating=true) (h : Yields (rootsValidate cfg) log true)
    (hm : ∀ found,⟨.lookup (.recordGet .root .DNSKEY),found⟩∈log → found=(none : Option (List Record × Bool))) :
    FetchedSecurely cfg log := by
  obtain ⟨outcome,first,rest,hw,hr,rfl⟩ := Yields.bind_inv h
  split at hr
  · cases (Yields.pure_inv hr).2
  · cases (Yields.pure_inv hr).2
  · rename_i res
    rw [hv] at hr
    obtain ⟨rfl,heq⟩ := Yields.pure_inv hr
    have hs : res.verdict=.secure := of_decide_eq_true heq.symm
    obtain ⟨trace,ht,hme⟩ := within_yields hw
    rw [append_nil] at hm ⊢
    exact ⟨trace,res,hme,ht,hs,resolve_fetched rfl ht hs fun found hf => hm found (hme _ hf)⟩

end

section

/-- The tier that is committed after an operation, and after a log. -/
def stored (tier : Nat) : ((o : AutoOp) × AutoRes o) → Nat
  | ⟨.storeTier t,_⟩ => t
  | _ => tier

def committed (tier : Nat) (log : List AutoEntry) : Nat := log.foldl (fun t e => stored t e.event) tier

/-- The roots are given up for another tier. -/
def MovesAway (tier : Nat) (log : List AutoEntry) (e : AutoEntry) : Prop :=
  committed tier log=0 ∧ ∃ t,t≠0 ∧ e.event=⟨.storeTier t,()⟩

/-- The operation is not that of a query that the roots have answered too late, nor does a probe find the
keys of the root in the cache. -/
def Timely (e : AutoEntry) : Prop :=
  (e.label ≠ .probe → ∀ active,e.event=⟨.noteTier 0,active⟩ → active=(0 : Nat)) ∧
  (e.label=.probe → ∀ found,e.event=⟨.lookup (.recordGet .root .DNSKEY),found⟩ →
    found=(none : Option (List Record × Bool)))

/-- The roots were not given up after `start`. -/
def Kept (tier : Nat) (first : List AutoEntry) (start : AutoEntry) (rest : List AutoEntry) : Prop :=
  ∀ mid x post,rest=mid++x::post → ¬ MovesAway tier (first++start::mid) x

variable (cfg : AutoConfig)

/-- An operation that brings the roots back is that of a probe, which since it started has fetched and
validated the keys of the root; since then the roots have not been given up. -/
def BroughtBack (tier : Nat) (before : List AutoEntry) (e : AutoEntry) : Prop :=
  e.label=.probe ∧ ∃ first start rest,before=first++start::rest ∧ Kept tier first start rest ∧
    FetchedSecurely cfg (ownEvents rest e.id)

/-- Whenever the roots come back they are brought back so. -/
def RecoversValidated (tier : Nat) (log : List AutoEntry) : Prop :=
  ∀ before e after,log=before++e::after → e.event=⟨.storeTier 0,()⟩ → committed tier before≠0 →
    BroughtBack cfg tier before e

variable {cfg : AutoConfig} {tier calls : Nat} {P P' : AutoSession} {t : Task Request AutoOp AutoRes (Option Bytes)}
  {tasks : List (Task Request AutoOp AutoRes (Option Bytes))} {log : List AutoEntry} {s' s : AutoState}

theorem committed_concat (log : List AutoEntry) (e : AutoEntry) :
    committed tier (log++[e])=stored (committed tier log) e.event := by
  rw [committed,foldl_append]
  rfl

variable {o : AutoOp} {e : AutoEntry}

theorem tier_of_acts {r : AutoRes o} (h : autoActs cfg s o r s') : s'.tier=stored s.tier ⟨o,r⟩ := by
  cases o with
  | server o =>
    cases o with
    | held o =>
      obtain ⟨held,-,heq⟩ := h
      rw [heq]
      rfl
    | _ =>
      rw [show s'=s from h]
      rfl
  | lookup o | startTier | noteTier winner | addStreak =>
    rw [h.2]
    rfl
  | _ =>
    rw [show s'=_ from h]
    rfl

theorem stored_ne_zero {event : (o : AutoOp) × AutoRes o} (h : tier≠0) (he : event≠⟨.storeTier 0,()⟩) :
    stored tier event≠0 := by
  obtain ⟨o,r⟩ := event
  cases o with
  | storeTier t =>
    rintro rfl
    exact he rfl
  | _ => exact h

theorem not_quiet_storeTier (s : Nat) : ¬ Quiet (.storeTier s) := by
  intro h
  obtain ⟨_,_,_,hr,-⟩ := h (fun _ _ => False) []
  exact hr

/-- Only a probe that has validated the keys of the root comes to store the roots. -/
theorem probe_of_storeRoots (hre : Recorded (contract cfg) P) (hti : ∀ e∈P.log,Timely e) (ht : t∈P.tasks)
    (ha : contract cfg t.label t.past (.storeTier 0)) :
    t.label=.probe ∧ ∃ (active : Nat) (trial : AutoPast) (noted : Nat),active≠0 ∧
      Yields (rootsValidate cfg) trial true ∧
      t.past=⟨.startTier,active⟩::(trial++⟨.noteTier 0,noted⟩::flushed) := by
  cases hl : t.label with
  | query queryData sourceIp localIp proto =>
    rw [hl] at ha
    obtain ⟨before,noted,between,-,hp,hc⟩ := ha
    have hm : (⟨.noteTier 0,noted⟩ : (o : AutoOp) × AutoRes o)∈ownEvents P.log t.id := by
      rw [hre.own t ht,hp]
      simp
    obtain ⟨y,hy,hid,he⟩ := mem_ownEvents hm
    have hn : y.label ≠ .probe := by
      rw [hre.labels t ht y hy hid,hl]
      nofun
    have hz : (noted : Nat)=0 := (hti y hy).1 hn noted he
    rcases hc with ⟨hle,-⟩ | ⟨hle,-⟩
    · omega
    · omega
  | prime =>
    rw [hl] at ha
    obtain ⟨before,noted,between,hr,-⟩ := ha
    exact hr.elim
  | probe =>
    rw [hl] at ha
    obtain ⟨before,noted,between,hr,hp,hc⟩ := ha
    obtain ⟨active,trial,rfl,hac,htr⟩ := hr rfl
    refine ⟨rfl,active,trial,noted,hac,htr,?_⟩
    rcases hc with ⟨-,rfl⟩ | ⟨hle,-⟩
    · rw [hp]
      simp
    · omega

def Under (tier : Nat) (P : AutoSession) (id : Nat) : Prop :=
  P.state.tier≠0 ∧ ∃ first start rest,P.log=first++start::rest ∧ ownEvents first id=[] ∧ start.id=id ∧
    Kept tier first start rest

structure Recovering (cfg : AutoConfig) (tier : Nat) (P : AutoSession) : Prop where
  agrees : P.state.tier=committed tier P.log
  timely : ∀ e∈P.log,Timely e
  single : ∀ t∈P.tasks,∀ t'∈P.tasks,t.label=.probe → t'.label=.probe → t.id=t'.id
  under : ∀ t∈P.tasks,t.label=.probe → ∀ (active : Nat) (trail : AutoPast),t.past=⟨.startTier,active⟩::trail →
    active≠0 →
    (∀ s,⟨.storeTier s,()⟩∉trail) → Under tier P t.id
  sound : RecoversValidated cfg tier P.log

/-- An operation that does not store the roots leaves the tier away from them. -/
theorem Under.extend {id : Nat} (h : Under tier P id) (ha : P.state.tier=committed tier P.log)
    (hs : s'.tier=stored P.state.tier e.event)
    (he : e.event≠⟨.storeTier 0,()⟩) : Under tier ⟨s',tasks,P.log++[e],calls⟩ id := by
  obtain ⟨hne,first,start,rest,hl,hf,hst,hk⟩ := h
  refine ⟨?_,first,start,rest++[e],?_,hf,hst,fun mid x post hsp => ?_⟩
  · rw [hs]
    exact stored_ne_zero hne he
  · rw [hl,append_assoc,cons_append]
  · rcases eq_nil_or_concat post with rfl | ⟨post',x',rfl⟩
    · obtain ⟨rfl,-⟩ := append_inj' hsp rfl
      rintro ⟨hr,-⟩
      rw [← hl,← ha] at hr
      exact hne hr
    · rw [concat_eq_append,← cons_append,← append_assoc] at hsp
      exact hk mid x post' (append_inj' hsp rfl).1

theorem under_start (hs : s.tier≠0) (ho : ownEvents log e.id=[]) : Under tier ⟨s,tasks,log++[e],calls⟩ e.id :=
  ⟨hs,log,e,[],rfl,ho,rfl,fun mid x post hsp => absurd hsp (by simp)⟩

theorem FetchedSecurely.mono {log log' : AutoPast} (h : FetchedSecurely cfg log) (hsu : log⊆log') :
    FetchedSecurely cfg log' := by
  obtain ⟨trace,res,hm,hy,hs,hf⟩ := h
  exact ⟨trace,res,fun e he => hsu (hm e he),hy,hs,hf⟩

/-- A probe that brings the roots back has fetched the keys since it started. -/
theorem broughtBack (hv : cfg.resolver.validating=true) (hr : Recorded (contract cfg) P) (h : Recovering cfg tier P)
    (ht : t∈P.tasks) (ha : contract cfg t.label t.past (.storeTier 0)) :
    BroughtBack cfg tier P.log (t.entry (.storeTier 0) ()) := by
  obtain ⟨hl,active,trial,noted,hac,htr,hp⟩ := probe_of_storeRoots hr h.timely ht ha
  have hq : ∀ s,(⟨.storeTier s,()⟩ : (o : AutoOp) × AutoRes o)∉trial++⟨.noteTier 0,noted⟩::flushed := by
    intro s hm
    rcases mem_append.mp hm with hm | hm
    · exact not_quiet_storeTier s (htr.demands (rootsValidate_sat (fun _ _ => trivial) quiet_lookup) _ hm)
    · simp [flushed] at hm
  obtain ⟨-,first,start,rest,hlo,hfi,hs,hk⟩ := h.under t ht hl active _ hp hac hq
  have ho := hr.own t ht
  rw [hlo,ownEvents_append,hfi,nil_append,hp,← singleton_append,ownEvents_append] at ho
  have hre : ownEvents rest t.id=trial++⟨.noteTier 0,noted⟩::flushed := by
    rw [ownEvents,filter_singleton] at ho
    simp [hs] at ho
    exact ho.2
  refine ⟨hl,first,start,rest,hlo,hk,?_⟩
  have hf : FetchedSecurely cfg trial := by
    refine fetchedSecurely_of_rootsValidate hv htr fun found hfo => ?_
    have hm : (⟨.lookup (.recordGet .root .DNSKEY),found⟩ : (o : AutoOp) × AutoRes o)∈ownEvents P.log t.id := by
      rw [hr.own t ht,hp]
      exact mem_cons_of_mem _ (mem_append_left _ hfo)
    obtain ⟨y,hy,hid,he⟩ := mem_ownEvents hm
    exact (h.timely y hy).2 ((hr.labels t ht y hy hid).trans hl) found he
  exact hf.mono (hre ▸ subset_append_left _ _)

theorem Recovering.call
    {request : Request} (h : Recovering cfg tier ⟨s,tasks,log,calls⟩)
    (ha : (server cfg).admits (tasks.map Task.label) request) :
    Recovering cfg tier ⟨s,⟨calls,request,log.length,[],request.program cfg⟩::tasks,log,calls+1⟩ where
  agrees := h.agrees
  timely := h.timely
  single t ht t' ht' hl hl' := by
    have hn {x : Task Request AutoOp AutoRes (Option Bytes)} (hx : x∈tasks) (hpr : x.label=.probe) :
      request ≠ .probe := by
      intro heq
      refine ha heq ?_
      rw [← hpr]
      exact mem_map_of_mem hx
    rcases mem_cons.mp ht with rfl | ht
    · rcases mem_cons.mp ht' with rfl | ht'
      · rfl
      · exact absurd hl (hn ht' hl')
    · rcases mem_cons.mp ht' with rfl | ht'
      · exact absurd hl' (hn ht hl)
      · exact h.single t ht t' ht' hl hl'
  under t ht hl active trail hp hac hq := by
    rcases mem_cons.mp ht with rfl | ht
    · cases hp
    · exact h.under t ht hl active trail hp hac hq
  sound := h.sound

theorem Recovering.act {before after : List (Task Request AutoOp AutoRes (Option Bytes))}
    {next : AutoRes o → AutoProg (Option Bytes)} {r : AutoRes o} (hv : cfg.resolver.validating=true)
    (hr : Recorded (contract cfg) ⟨s,before++t::after,log,calls⟩)
    (h : Recovering cfg tier ⟨s,before++t::after,log,calls⟩)
    (hre : t.rest=.op o next) (hac : autoActs cfg s o r s') (hti : Timely (t.entry o r)) :
    Recovering cfg tier ⟨s',before++t.resume o r (next r)::after,log++[t.entry o r],calls⟩ := by
  have hse : t∈before++t::after := by simp
  have hal : contract cfg t.label t.past o := by
    have hk := hr.keeps t hse
    rw [hre] at hk
    exact hk.1
  have ht := tier_of_acts hac
  refine ⟨?_,?_,?_,?_,?_⟩
  · rw [committed_concat]
    exact ht.trans (congrArg (stored · _) h.agrees)
  · exact forall_mem_append.mpr ⟨h.timely,forall_mem_singleton.mpr hti⟩
  · -- whoever moves on stays who it is
    have hsa {x : Task Request AutoOp AutoRes (Option Bytes)} (hx : x∈before++t.resume o r (next r)::after) :
        ∃ y∈before++t::after,y.id=x.id ∧ y.label=x.label := by
      rcases hr.mem_resumed hx with rfl | ⟨hx,-⟩
      · exact ⟨t,hse,rfl,rfl⟩
      · exact ⟨x,hx,rfl,rfl⟩
    intro x hx x' hx' hl hl'
    obtain ⟨y,hy,hid,hsameLabel⟩ := hsa hx
    obtain ⟨y',hy',hid',hsameLabel'⟩ := hsa hx'
    rw [← hid,← hid']
    exact h.single y hy y' hy' (hsameLabel.trans hl) (hsameLabel'.trans hl')
  · intro x hx hl active trail hp ha hq
    rcases hr.mem_resumed hx with rfl | ⟨ho,hid⟩
    · rcases he : t.past with _ | ⟨head,tail⟩
      · -- the first operation of the probe
        simp only [Task.resume,he,nil_append,cons.injEq] at hp
        obtain ⟨heq,-⟩ := hp
        cases heq
        obtain ⟨hra,rfl⟩ := hac
        refine under_start (e := t.entry .startTier active) (hra ▸ ha) ?_
        exact (hr.own t hse).trans he
      · simp only [Task.resume,he,cons_append,cons.injEq] at hp
        obtain ⟨rfl,rfl⟩ := hp
        have hu := h.under t hse hl active tail he ha fun s hs => hq s (mem_append_left _ hs)
        refine hu.extend h.agrees ht fun heq => hq 0 ?_
        rw [← heq]
        exact mem_append_right _ (mem_singleton_self _)
    · -- another request has moved on; it is not a probe, and so does not bring the roots back
      refine (h.under x ho hl active trail hp ha hq).extend h.agrees ht fun heq => ?_
      cases heq
      obtain ⟨hpr,-⟩ := probe_of_storeRoots hr h.timely hse hal
      exact hid (h.single t hse x ho hpr hl)
  · intro first e rest hsp hev hro
    rcases eq_nil_or_concat rest with rfl | ⟨rest',e',rfl⟩
    · obtain ⟨rfl,heq⟩ := append_inj' hsp rfl
      obtain ⟨rfl,-⟩ := cons.inj heq
      cases hev
      exact broughtBack hv hr h hse hal
    · rw [concat_eq_append,← cons_append,← append_assoc] at hsp
      exact h.sound first e rest' (append_inj' hsp rfl).1 hev hro

theorem Recovering.step (hv : cfg.resolver.validating=true) (hre : Recorded (contract cfg) P)
    (h : Recovering cfg tier P)
    (hst : Advance (server cfg) (fun _ e => Timely e) P P') : Recovering cfg tier P' := by
  cases hst with
  | call s tasks log calls had => exact h.call had
  | act before after log calls t hr hat ha => exact h.act hv hre hr hat ha
  | leave s before after log calls t =>
    have hs : before++after⊆before++t::after := ((sublist_cons_self _ _).append_left _).subset
    exact ⟨h.agrees,h.timely,fun x hx y hy => h.single x (hs hx) y (hs hy),fun x hx => h.under x (hs hx),h.sound⟩
  | drift tasks log calls hd =>
    refine ⟨hd.tier.trans h.agrees,h.timely,h.single,fun x hx hl active trail hp hac hq => ?_,h.sound⟩
    obtain ⟨hne,hu⟩ := h.under x hx hl active trail hp hac hq
    exact ⟨hd.tier ▸ hne,hu⟩

/-- In every run in which no query notes an answer of the roots after they were given up, and no probe takes
the keys of the root from the cache, the roots come back only by a probe that has fetched and validated
these keys since they were given up last. -/
theorem recovers_validated {s : AutoState} (hvalidating : cfg.resolver.validating=true)
    (hcourse : Course (server cfg) (fun _ e => Timely e) (.initial s) P) : RecoversValidated cfg s.tier P.log := by
  have hi : Recovering cfg s.tier (.initial s) :=
    ⟨rfl,forall_mem_nil _,forall_mem_nil _,forall_mem_nil _,
      fun before e after hs => absurd hs (by simp [Session.initial])⟩
  have hp : ∀ request,Keeps (lookingBack (contract cfg request)) [] ((server cfg).program request) fun _ _ => True :=
    program_keeps
  have hh := Course.holds (Recovering cfg s.tier) hp hi (fun _ _ hr h hst => h.step hvalidating hr hst) hcourse
  exact hh.2.sound

end

section
open DenialChains AuthenticData ResolverExecution

variable (e : AutoEntry)

def storesRoots : Bool :=
  match e.event with
  | ⟨.storeTier 0,_⟩ => true
  | _ => false

def timely : Bool :=
  match e.event with
  | ⟨.noteTier 0,active⟩ => decide (e.label ≠ .probe → active=(0 : Nat))
  | ⟨.lookup (.recordGet name qtype),(found : Option (List Record × Bool))⟩ =>
    decide (e.label=.probe ∧ name=.root ∧ qtype=.DNSKEY → found.isNone=true)
  | _ => true

theorem timely_of (h : timely e=true) : Timely e := by
  unfold timely at h
  constructor
  · intro hl active he
    rw [he] at h
    exact of_decide_eq_true h hl
  · intro hl found he
    rw [he] at h
    exact Option.isNone_iff_eq_none.mp (of_decide_eq_true h ⟨hl,rfl,rfl⟩)

def probeRun : Option AutoSession :=
  rehearse ⟨rootsOnly,none,fun _ => false⟩ (fun _ e => timely e) ⟨.fresh [] 0,.empty,1,0⟩
    (.call .probe::replicate 45 (.step 0))

theorem recovers_validated_probe :
    ∃ P,probeRun=some P ∧ P.log.any storesRoots=true ∧ RecoversValidated twoTiers 1 P.log := by
  have hr : probeRun.any (fun P => P.log.any storesRoots)=true := by decide +kernel
  obtain ⟨P,hP,hs⟩ := (Option.any_eq_true _ _).mp hr
  exact ⟨P,hP,hs,recovers_validated rfl (course_rehearse (fun _ e => timely_of e) hP)⟩

/-- The roots are committed and the address of the name is in the record cache. -/
def answerKnown : AutoState :=
  ⟨{ World.fresh [] 0 with
    records := RecordCache.insertWithProof [] toyLibrary 300 0 nameA .A [toyRecord nameA (.a 7)] false },.empty,0,0⟩

/-- A first query finds the address and waits. The time of a second one is up before the roots answer, so
that it takes the forwarder's reply and commits to it. Then the first one goes on. -/
def lateRun : Option AutoSession :=
  rehearse ⟨rootsOnly,some vouchedABytes,fun request => decide (request=askedOver .udp)⟩ (fun _ _ => true) answerKnown
    (.call (askedOver .tcp)::replicate 17 (.step 0) ++ .call (askedOver .udp)::replicate 34 (.step 0))

def comesBack (log : List AutoEntry) : Bool :=
  match log.reverse with
  | [] => false
  | e::before => storesRoots e && decide (committed 0 before.reverse≠0) && decide (e.label ≠ .probe)

theorem event_of_storesRoots {e : AutoEntry} (h : storesRoots e=true) : e.event=⟨.storeTier 0,()⟩ := by
  unfold storesRoots at h
  split at h
  · assumption
  · cases h

theorem not_recoversValidated_of_comesBack {cfg : AutoConfig} {log : List AutoEntry} (h : comesBack log=true) :
    ¬ RecoversValidated cfg 0 log := by
  intro hr
  unfold comesBack at h
  split at h
  · cases h
  · rename_i e before hlo
    simp only [Bool.and_eq_true,decide_eq_true_eq] at h
    obtain ⟨⟨hs,ha⟩,hl⟩ := h
    have hsp : log=before.reverse++e::[] := by rw [← reverse_reverse log,hlo,reverse_cons]
    exact hl (hr _ _ _ hsp (event_of_storesRoots hs) ha).1

/-- A query that the roots answer late brings them back, with nothing validated since they were given up. -/
theorem late_answer_recovers :
    ∃ P,Course (server twoTiers) (fun _ _ => True) (.initial answerKnown) P ∧ ¬ RecoversValidated twoTiers 0 P.log := by
  have hr : lateRun.any (fun P => comesBack P.log)=true := by decide +kernel
  obtain ⟨P,hP,hb⟩ := (Option.any_eq_true _ _).mp hr
  exact ⟨P,course_rehearse (fun _ _ _ => trivial) hP,not_recoversValidated_of_comesBack hb⟩

end

end RolodexDns.TierRecovery
