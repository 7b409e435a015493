import RolodexDns.CacheSpellings
import RolodexDns.StoredRdata
import RolodexDns.TierFlushes
import RolodexDns.UpstreamContracts

/-! Which questions the entries of the answer cache answer. An entry stands under the text of its name and
the kind of its type; the types that cannot be stored have one kind between them, so what is kept for one of
them is found by the others. -/
namespace RolodexDns.CacheQuestions
open DnsRecords ProgramTrees ProgramTraces StoredRecords WireMessages ServerOperations ExpiringMaps List ExpiringMap
open AuthoritativeAnswers LocalAnswers UpstreamResolution QueryHandling LocalTraces UpstreamContracts
  AnswerCaches CacheSpellings

/-- What comes after the last colon, and before it. -/
theorem append_colon_inj {a a' b b' : Text} (hb : ':' ∉ b) (hb' : ':' ∉ b') (h : a ++ ':' :: b=a' ++ ':' :: b') :
    a=a' ∧ b=b' := by
  have hba : b.reverse ++ ':' :: a.reverse=b'.reverse ++ ':' :: a'.reverse := by simpa using congrArg reverse h
  have hs (b a : Text) (hb : ':' ∉ b) : (b.reverse ++ ':' :: a.reverse).takeWhile (· ≠ ':')=b.reverse := by
    have hp : ∀ c∈b.reverse,decide (c ≠ ':')=true := fun c hc => decide_eq_true fun hco =>
      hb (hco ▸ mem_reverse.mp hc)
    rw [takeWhile_append_of_pos hp]
    simp
  have heq : b=b' := by
    have ht := congrArg (takeWhile (· ≠ ':')) hba
    rwa [hs b a hb,hs b' a' hb',reverse_inj] at ht
  subst heq
  exact ⟨append_cancel_right h,rfl⟩

theorem cacheKey_inj {name name' : Text} {kind kind' : Option RecordKind}
    (h : cacheKey name kind=cacheKey name' kind') :
    name.map Char.toLower=name'.map Char.toLower ∧ kind=kind' := by
  obtain ⟨hname,hk⟩ := append_colon_inj colon_notMem_kind colon_notMem_kind h
  refine ⟨hname,?_⟩
  have hs (kind : RecordKind) : kind.asStr≠['*'] := by cases kind <;> decide
  cases kind with
  | none =>
    cases kind' with
    | none => rfl
    | some kind' => exact absurd hk.symm (hs kind')
  | some kind =>
    cases kind' with
    | none => exact absurd hk (hs kind)
    | some kind' => exact congrArg some (StoredRdata.asStr_injective hk)

theorem mapQueryTypeToKind_some {t : RecordType} {kind : RecordKind} (h : mapQueryTypeToKind t=some kind) :
    t.code=StoredRdata.wireType kind := by
  unfold mapQueryTypeToKind at h
  split at h
  all_goals
    cases h
    try exact UInt16.toNat_inj.mp ‹t.code.toNat=_›

variable (lib : ServerLibrary)

/-- The name a question is kept under, bare or in a scope. -/
def placedName (q : Query) : Option Text → Text
  | none => lib.nameText q.name
  | some scope => '@' :: scope ++ '/' :: lib.nameText q.name

/-- The name and the kind a question is kept under. In a scope it is kept if it has a kind. -/
structure KeptUnder (lib : ServerLibrary) (place : Option Text) (q : Query) (name : Text)
    (kind : Option RecordKind) : Prop where
  named : name=placedName lib q place
  typed : kind=mapQueryTypeToKind q.queryType
  storable : place.isSome=true → kind.isSome=true

/-- The cache is read, and the server's own records are kept, for the question that was asked; what came
from upstream is kept for the question that it answers. -/
def UsedFor (upstream : Query → Prop) (asked : Query) : LocalOp → Prop
  | .cacheLookup name kind | .cacheLookupLocalOnly name kind | .cacheLookupNegative name kind
    | .cacheInsertLocal name kind _ =>
    ∃ place,KeptUnder lib place asked name kind
  | .cacheInsert name kind _ _ | .cacheInsertNegative name kind _ _ =>
    ∃ question,upstream question ∧ KeptUnder lib none question name kind
  | _ => True

/-- The first question of one of the queries, or of a reply of a forwarder to one of them. -/
def AnsweredIn (cfg : ServerConfig) (queries : List Bytes) (log : ServerLog) (question : Query) : Prop :=
  ∃ bytes p,(bytes∈queries ∨
      ∃ query∈queries,∃ e∈log,∃ f,UpstreamTraces.accepted cfg e=some (.reply query (.forwarder f) bytes)) ∧
    cfg.lib.fromBytes bytes=some p ∧ p.queries.head?=some question

/-- What goes upstream: the query itself, and that of DNS64 for the addresses of the name. -/
def upstreamQueries (lib : ServerLibrary) (queryData : Bytes) (message : Packet) (asked : Query) : List Bytes :=
  [queryData,buildQueryForType lib (lib.nameText asked.name) .A message.id]

section
variable {cfg : ServerConfig} {ask : Asked} {queries : List Bytes} {log : ServerLog}

/-- A contract on what the server holds, where nothing has come from upstream. -/
abbrev cacheUse (cfg : ServerConfig) (ask : Asked) : Contract LocalOp LocalRes :=
  ⟨UsedFor cfg.lib (fun _ => False) ask.question,fun _ _ => True⟩

variable {α : Type} {o : LocalOp} {queryData : Bytes}

theorem uses_of_workingOn {p : LocalProg α} {Q : α → Prop} (h : p.Sat
      (workingOn (fun name kind => ∃ place,KeptUnder cfg.lib place ask.question name kind) fun _ => True)
      Q) : p.Sat (cacheUse cfg ask) fun _ => True := by
  refine (h.mono fun _ _ => trivial).weaken (fun o ho => ?_) fun _ _ _ => trivial
  cases o with
  | cacheLookup | cacheLookupLocalOnly | cacheLookupNegative | cacheInsertLocal => exact ho
  | cacheInsert | cacheInsertNegative => exact ho.elim
  | _ => trivial

theorem uses_step {f : LocalRes o → LocalProg α} (h : UsedFor cfg.lib (fun _ => False) ask.question o)
    (hf : ∀ r,(f r).Sat (cacheUse cfg ask) fun _ => True) :
    (LocalProg.perform o >>= f).Sat (cacheUse cfg ask) fun _ => True :=
  ⟨h,fun r _ => hf r⟩

theorem uses_firstSome {steps : List LocalDecision} (h : ∀ step∈steps,step.Sat (cacheUse cfg ask) fun _ => True) :
    (firstSome steps).Sat (cacheUse cfg ask) fun _ => True := by
  induction steps with
  | nil => trivial
  | cons step steps ih =>
    obtain ⟨hst,hs⟩ := forall_mem_cons.mp h
    refine hst.bind fun found _ => ?_
    cases found with
    | some a => trivial
    | none => exact ih hs

variable (hname : ask.qname=cfg.lib.nameText ask.question.name) (scope : Text) (overrideIp : Option IpAddr)
include hname

theorem keptUnder_own : KeptUnder cfg.lib none ask.question ask.qname ask.recordKind :=
  ⟨hname,rfl,nofun⟩

theorem keptUnder_scoped {kind : RecordKind} (hk : ask.recordKind=some kind) (scope : Text) :
    KeptUnder cfg.lib (some scope) ask.question (scopedCacheName ask scope) (some kind) :=
  ⟨by rw [scopedCacheName,hname]; rfl,hk.symm,fun _ => rfl⟩

omit hname in
theorem scopedTld_uses : (scopedTld ask scope).Sat (cacheUse cfg ask) fun _ => True := by
  refine uses_step trivial fun owner => ?_
  cases owner with
  | none => trivial
  | some owner =>
    dsimp only
    split
    · exact uses_step trivial fun _ => trivial
    · trivial

theorem scopedAnswer_uses :
    (scopedAnswer cfg ask scope overrideIp).Sat (cacheUse cfg ask) fun _ => True := by
  refine uses_firstSome ?_
  simp only [forall_mem_cons]
  refine ⟨uses_of_workingOn (reverseBlocklist_sat cfg.lib true),?_,uses_of_workingOn (scopedCname_sat cfg trivial),
    uses_of_workingOn (checkDnameScoped_sat cfg.lib trivial ask.qname),scopedTld_uses scope,
    uses_of_workingOn (scopedZones_sat cfg trivial),forall_mem_nil _⟩
  split
  · rename_i kind hk
    exact uses_of_workingOn (scopedOfKind_sat cfg trivial overrideIp ⟨_,keptUnder_scoped hname hk scope⟩)
  · trivial

omit hname in
theorem lanFallback_uses : (lanFallback cfg ask overrideIp).Sat (cacheUse cfg ask) fun _ => True := by
  refine uses_step trivial fun owner => ?_
  cases owner with
  | none => trivial
  | some owner =>
    obtain ⟨owner,tld⟩ := owner
    refine (uses_of_workingOn (lanRecords_sat cfg overrideIp trivial)).bind fun found _ => ?_
    cases found with
    | some step => trivial
    | none => exact uses_step trivial fun _ => trivial

omit hname in
theorem domainBlocklist_uses : (domainBlocklist cfg.lib ask).Sat (cacheUse cfg ask) fun _ => True := by
  unfold domainBlocklist
  split
  · trivial
  · refine (uses_of_workingOn (blocklistExempt_sat cfg.lib ask.qname none)).bind fun exempt _ => ?_
    split
    · trivial
    · refine (uses_of_workingOn (localListsName_sat ask.qname)).bind fun byLocal _ => ?_
      have hl (listed : Bool) : Prog.Sat (cacheUse cfg ask) (if listed=true then
          pure (some (.answer (.edns .NXDomain [] false))) else pure none : LocalDecision) fun _ => True := by
        split <;> trivial
      cases byLocal with
      | true => exact hl true
      | false => exact uses_step trivial hl

theorem localAnswer_uses :
    (localAnswer cfg ask).Sat (cacheUse cfg ask) fun _ => True := by
  have hr : ∀ step∈localAnswer.rest cfg ask,step.Sat (cacheUse cfg ask) fun _ => True := by
    unfold localAnswer.rest
    simp only [forall_mem_cons]
    refine ⟨uses_of_workingOn (checkDnameGlobal_sat cfg.lib ask.qname),uses_of_workingOn (managedZone_sat cfg),
      uses_of_workingOn (authoritativeZone_sat cfg),?_,domainBlocklist_uses,
      uses_of_workingOn (cachedAnswer_sat cfg ⟨none,keptUnder_own hname⟩),forall_mem_nil _⟩
    unfold recursionGate
    split_ifs <;> trivial
  have hg : (globalRecords cfg ask).Sat (cacheUse cfg ask) fun _ => True :=
    uses_of_workingOn (globalRecords_sat cfg fun kind hk => ⟨none,hk ▸ keptUnder_own hname⟩)
  refine Prog.Sat.bind (uses_of_workingOn ingressTarget_sat) fun ingress _ => ?_
  refine (uses_of_workingOn (scopeOf_sat cfg)).bind fun client _ => ?_
  cases client with
  | error reply => trivial
  | ok scope =>
    cases scope with
    | none =>
      refine uses_firstSome (forall_mem_append.mpr ⟨?_,hr⟩)
      simp only [forall_mem_cons]
      exact ⟨uses_of_workingOn (reverseBlocklist_sat cfg.lib false),hg,lanFallback_uses _,forall_mem_nil _⟩
    | some scope =>
      refine uses_firstSome (forall_mem_append.mpr ⟨?_,hr⟩)
      simp only [forall_mem_cons]
      exact ⟨scopedAnswer_uses hname scope _,hg,forall_mem_nil _⟩

/-- The same for everything a query does. -/
abbrev serverUse (cfg : ServerConfig) (ask : Asked) (queries : List Bytes) (log : ServerLog) :
    Contract ServerOp ServerRes where
  demands
    | .held o => UsedFor cfg.lib (AnsweredIn cfg queries log) ask.question o
    | _ => True
  promises o r := ⟨o,r⟩∈log

omit hname in
theorem held_uses {p : LocalProg α} (h : p.Sat (cacheUse cfg ask) fun _ => True) :
    (ServerProg.held p).Sat (serverUse cfg ask queries log) fun _ => True := by
  have hl : (ServerProg.held p).Sat ⟨(serverUse cfg ask queries log).demands,fun _ _ => True⟩ fun _ => True := by
    refine sat_lift (h.weaken (fun o ho => ?_) fun _ _ h => h)
    cases o with
    | cacheInsert | cacheInsertNegative =>
      obtain ⟨-,hf,-⟩ := ho
      exact hf.elim
    | _ => exact ho
  exact hl.weaken (fun _ h => h) fun _ _ _ => trivial

omit hname in
theorem forwardToTldPeers_uses (queryData : Bytes) (peers : List SocketAddr) :
    (forwardToTldPeers cfg queryData peers).Sat (serverUse cfg ask queries log) fun _ => True := by
  refine (forwardToTldPeers_exchanges (List.Subset.refl _)).weaken (fun o ho => ?_) fun _ _ _ => trivial
  obtain ⟨peer,-,ho⟩ := ho
  cases o with
  | held o => exact ho.elim
  | _ => trivial

omit hname in
theorem upstreamResolve_uses (hl : cfg.lib.Lawful) (hq : queryData∈queries) (ctx : Option EdnsContext) :
    (upstreamResolve cfg queryData ctx).Sat (serverUse cfg ask queries log) fun _ => True := by
  let B : Bounds := ⟨fun _ => True,fun bytes => ∃ e∈log,∃ f,
    UpstreamTraces.accepted cfg e=some (.reply queryData (.forwarder f) bytes),
    fun name kind => ∃ question,AnsweredIn cfg queries log question ∧ KeptUnder cfg.lib none question name kind⟩
  have hfi : B.Fit cfg queryData :=
    ⟨trivial,fun {bytes p question} hg hp hf => ⟨question,⟨bytes,p,.inr ⟨queryData,hq,hg⟩,hp,hf⟩,rfl,rfl,nofun⟩,
      fun {p question} hp hf => ⟨question,⟨queryData,p,.inl hq,hp,hf⟩,rfl,rfl,nofun⟩⟩
  refine (upstreamResolve_resolving hl fun _ => hfi).weaken (fun o ho => ?_)
    fun o r hr => ⟨fun _ _ => trivial,fun f bytes hre => ⟨⟨o,r⟩,hr,f,hre⟩⟩
  cases o with
  | held o =>
    cases o with
    | cacheInsert | cacheInsertNegative => exact ho
    | _ => exact ho.elim
  | _ => trivial

omit hname in
theorem answerAsked_uses (hl : cfg.lib.Lawful) (hname : ask.qname=cfg.lib.nameText ask.question.name)
    (log : ServerLog) :
    (answerAsked cfg ask).Sat (serverUse cfg ask (upstreamQueries cfg.lib ask.queryData ask.message ask.question) log)
      fun _ => True := by
  refine (held_uses (localAnswer_uses hname)).bind fun step _ => ?_
  match step with
  | some (.answer reply) => trivial
  | some (.askPeers peers ns) =>
    refine (forwardToTldPeers_uses ask.queryData peers).bind fun reply _ => ?_
    cases reply with
    | some response => trivial
    | none =>
      have hns : Within (fun _ => True) ns := by cases ns <;> trivial
      exact (held_uses (uses_of_workingOn (authoritativeNegative_sat cfg.lib hns))).bind fun _ _ => trivial
  | none =>
    have hd : buildQueryForType cfg.lib ask.qname .A ask.message.id ∈
      upstreamQueries cfg.lib ask.queryData ask.message ask.question := by
      rw [hname]
      exact mem_cons_of_mem _ mem_cons_self
    exact answerUpstream_sat (upstreamResolve_uses hl mem_cons_self _) (upstreamResolve_uses hl hd _)
      ⟨none,keptUnder_own hname⟩

omit hname in
/-- Everything that handling a query does to the cache is for its own question, or keeps what came from
upstream for the question that it answers. -/
theorem handleQueryProto_uses (hl : cfg.lib.Lawful) {bytes : Bytes} {sourceIp localIp : Option IpAddr}
    {proto : Proto}
    {log : ServerLog} (h : Yields (handleQueryProto cfg queryData sourceIp localIp proto) log bytes)
    {r : LocalRes o}
    (ho : ⟨.held o,r⟩∈log) : ∃ message asked,cfg.lib.fromBytes queryData=some message ∧
      message.queries.head?=some asked ∧
      UsedFor cfg.lib (AnsweredIn cfg (upstreamQueries cfg.lib queryData message asked) log) asked o := by
  rcases handleQueryProto_inv h with ⟨rfl,-⟩ | ⟨ask,response,hr,hy,-⟩
  · cases ho
  · obtain ⟨hm,hq,ha⟩ := readQuery_ok hr
    have hname : ask.qname=cfg.lib.nameText ask.question.name := congrArg Asked.qname ha
    have hd : ask.queryData=queryData := congrArg Asked.queryData ha
    have hu := (hy.sat (answerAsked_uses hl hname log) fun _ he => he).1 _ ho
    rw [hd] at hu
    exact ⟨_,_,hm,hq,hu⟩

end

section
variable {key k : Text} {c c' : AnswerCache} {o : CacheOp} {now : Nat} {β : Type} {m m' : ExpiringMap Text β}

structure AgreeAt (key : Text) (c c' : AnswerCache) : Prop where
  memory : c.memory.entryOf key=c'.memory.entryOf key
  negatives : c.negatives.entryOf key=c'.negatives.entryOf key

theorem entryOf_put_congr {e : Timed β} (h : m.entryOf key=m'.entryOf key) :
    (m.put k e).entryOf key=(m'.put k e).entryOf key := by
  by_cases hk : key=k
  · subst hk
    rw [entryOf_put_self,entryOf_put_self]
  · rw [entryOf_put_of_ne hk,entryOf_put_of_ne hk,h]

theorem entryOf_get_congr (h : m.entryOf key=m'.entryOf key) :
    (m.get now k).2.entryOf key=(m'.get now k).2.entryOf key := by
  by_cases hk : key=k
  · subst hk
    rw [entryOf_get_self,entryOf_get_self,h]
  · rw [entryOf_get fun heq => absurd heq hk,entryOf_get fun heq => absurd heq hk,h]

theorem agreeAt_perform (h : AgreeAt key c c') : AgreeAt key (o.perform now c).2 (o.perform now c').2 := by
  cases o with
  | insert name kind records ttl =>
    simp only [CacheOp.perform,AnswerCache.insert]
    split
    · exact h
    · exact ⟨entryOf_put_congr h.memory,h.negatives⟩
  | insertLocal name kind records =>
    simp only [CacheOp.perform,AnswerCache.insertLocal]
    split
    · exact h
    · exact ⟨entryOf_put_congr h.memory,h.negatives⟩
  | insertNegative name kind negative ttl =>
    simp only [CacheOp.perform,AnswerCache.insertNegative]
    split
    · exact h
    · exact ⟨h.memory,entryOf_put_congr h.negatives⟩
  | lookup name kind =>
    refine ⟨?_,?_⟩
    · simp only [CacheOp.perform,memory_lookup]
      exact entryOf_get_congr h.memory
    · simp only [CacheOp.perform,negatives_lookup]
      exact h.negatives
  | lookupLocalOnly name kind =>
    refine ⟨?_,?_⟩
    · simp only [CacheOp.perform,memory_lookupLocalOnly]
      exact entryOf_get_congr h.memory
    · simp only [CacheOp.perform,negatives_lookupLocalOnly]
      exact h.negatives
  | lookupNegative name kind => exact ⟨h.memory,entryOf_get_congr h.negatives⟩
  | invalidateNegative name =>
    refine ⟨h.memory,?_⟩
    simp only [CacheOp.perform,AnswerCache.invalidateNegative]
    rw [entryOf_filter fun k => !(name++[':']).isPrefixOf k,entryOf_filter fun k => !(name++[':']).isPrefixOf k,
      h.negatives]
  | flush => exact ⟨rfl,rfl⟩

def after (c : AnswerCache) (ops : List (Nat × CacheOp)) : AnswerCache := ops.foldl (fun c e => (e.2.perform e.1 c).2) c

theorem agreeAt_after (h : AgreeAt key c c') (ops : List (Nat × CacheOp)) :
    AgreeAt key (after c ops) (after c' ops) := by
  induction ops generalizing c c' with
  | nil => exact h
  | cons e ops ih => exact ih (agreeAt_perform h)

def keyOf : CacheOp → Option Text
  | .insert name kind _ _ | .insertLocal name kind _ | .insertNegative name kind _ _
    | .lookup name kind | .lookupLocalOnly name kind
  | .lookupNegative name kind => some (cacheKey name kind)
  | .invalidateNegative _ | .flush => none

/-- An operation that stores under another key leaves this one alone. -/
theorem agreeAt_other (hk : keyOf o=some k) (hne : key≠k) : AgreeAt key (o.perform now c).2 c := by
  cases o with
  | insert name kind records ttl =>
    cases hk
    simp only [CacheOp.perform,AnswerCache.insert]
    split
    · exact ⟨rfl,rfl⟩
    · exact ⟨entryOf_put_of_ne hne,rfl⟩
  | insertLocal name kind records =>
    cases hk
    simp only [CacheOp.perform,AnswerCache.insertLocal]
    split
    · exact ⟨rfl,rfl⟩
    · exact ⟨entryOf_put_of_ne hne,rfl⟩
  | insertNegative name kind negative ttl =>
    cases hk
    simp only [CacheOp.perform,AnswerCache.insertNegative]
    split
    · exact ⟨rfl,rfl⟩
    · exact ⟨rfl,entryOf_put_of_ne hne⟩
  | lookup name kind =>
    cases hk
    refine ⟨?_,by simp only [CacheOp.perform,negatives_lookup]⟩
    simp only [CacheOp.perform,memory_lookup]
    exact entryOf_get fun heq => absurd heq hne
  | lookupLocalOnly name kind =>
    cases hk
    refine ⟨?_,by simp only [CacheOp.perform,negatives_lookupLocalOnly]⟩
    simp only [CacheOp.perform,memory_lookupLocalOnly]
    exact entryOf_get fun heq => absurd heq hne
  | lookupNegative name kind =>
    cases hk
    exact ⟨rfl,entryOf_get fun heq => absurd heq hne⟩
  | invalidateNegative | flush => cases hk

theorem perform_fst_congr (hk : keyOf o=some key) (h : AgreeAt key c c') :
    (o.perform now c).1=(o.perform now c').1 := by
  cases o with
  | lookup name kind =>
    cases hk
    simp only [CacheOp.perform,lookup_fst,get_fst,h.memory]
  | lookupLocalOnly name kind =>
    cases hk
    simp only [CacheOp.perform,lookupLocalOnly_fst,get_fst,h.memory]
  | lookupNegative name kind =>
    cases hk
    simp only [CacheOp.perform,AnswerCache.lookupNegative,get_fst,h.negatives]
  | invalidateNegative | flush => cases hk
  | _ => rfl

/-- There is a sequence of operations after which the reading finds something else without the store. -/
def Serves (store reading : CacheOp) : Prop := ∃ c before later now now',
  (reading.perform now' (after c (before++(now,store)::later))).1≠(reading.perform now' (after c (before++later))).1

theorem keyOf_eq_of_serves {store reading : CacheOp} {k' : Text} (hs : keyOf store=some k) (hr : keyOf reading=some k')
    (h : Serves store reading) : k=k' := by
  obtain ⟨c,before,later,now,now',hd⟩ := h
  by_contra hne
  refine hd (perform_fst_congr hr ?_)
  simp only [after,foldl_append,foldl_cons]
  exact agreeAt_after (agreeAt_other hs (Ne.symm hne)) later

end

section
variable (lib : ServerLibrary) (place : Option Text) (q : Query)

def Stores : CacheOp → Prop
  | .insert name kind _ _ | .insertNegative name kind _ _ => place=none ∧ KeptUnder lib none q name kind
  | .insertLocal name kind _ => KeptUnder lib place q name kind
  | _ => False

def Reads : CacheOp → Prop
  | .lookup name kind => KeptUnder lib place q name kind
  | .lookupLocalOnly name kind | .lookupNegative name kind => place=none ∧ KeptUnder lib none q name kind
  | _ => False

def Denies : CacheOp → Prop
  | .insertNegative _ _ .nxDomain _ => True
  | _ => False

/-- The names of two questions can be told apart by their text, and are not written like the names of a scope. -/
structure Legible (q q' : Query) : Prop where
  distinct : (lib.nameText q.name).map Char.toLower=(lib.nameText q'.name).map Char.toLower → q.name=q'.name
  bare : (lib.nameText q.name).head?≠some '@' ∧ (lib.nameText q'.name).head?≠some '@'

/-- Global questions for one name have the same type if neither type can be stored; questions of scopes have
the same name if they are written the same. -/
def Apart (q q' : Query) : Option Text → Option Text → Prop
  | none, none => q.name=q'.name → mapQueryTypeToKind q.queryType=none → mapQueryTypeToKind q'.queryType=none →
    q.queryType=q'.queryType
  | some scope, some scope' => q.queryType=q'.queryType → mapQueryTypeToKind q.queryType≠none →
    (placedName lib q (some scope)).map Char.toLower=(placedName lib q' (some scope')).map Char.toLower → q.name=q'.name
  | _, _ => True

end

section
variable {lib : ServerLibrary} {place place' : Option Text} {q q' : Query} {o store reading : CacheOp}

theorem Stores.keyOf (h : Stores lib place q o) :
    ∃ kind,CacheQuestions.keyOf o=some (cacheKey (placedName lib q place) kind) ∧ kind=mapQueryTypeToKind q.queryType ∧
      (place.isSome=true → kind.isSome=true) := by
  cases o with
  | insert name kind records ttl | insertNegative name kind negative ttl =>
    obtain ⟨rfl,hk⟩ := h
    exact ⟨kind,by rw [← hk.named]; rfl,hk.typed,hk.storable⟩
  | insertLocal name kind records => exact ⟨kind,by rw [← h.named]; rfl,h.typed,h.storable⟩
  | _ => exact h.elim

theorem Reads.keyOf (h : Reads lib place q o) :
    ∃ kind,CacheQuestions.keyOf o=some (cacheKey (placedName lib q place) kind) ∧
      kind=mapQueryTypeToKind q.queryType := by
  cases o with
  | lookup name kind => exact ⟨kind,by rw [← h.named]; rfl,h.typed⟩
  | lookupLocalOnly name kind | lookupNegative name kind =>
    obtain ⟨rfl,hk⟩ := h
    exact ⟨kind,by rw [← hk.named]; rfl,hk.typed⟩
  | _ => exact h.elim

theorem queryType_eq {t t' : RecordType} (h : mapQueryTypeToKind t=mapQueryTypeToKind t')
    (hs : mapQueryTypeToKind t≠none) : t=t' := by
  obtain ⟨kind,hk⟩ := Option.ne_none_iff_exists'.mp hs
  have hc := (mapQueryTypeToKind_some hk).trans (mapQueryTypeToKind_some (h ▸ hk)).symm
  cases t
  cases t'
  exact congrArg _ hc

/-- The text of a name in a scope starts like no other. -/
theorem head?_toLower_ne {t : Text} (h : t.head?≠some '@') : (t.map Char.toLower).head?≠some '@' := by
  cases t with
  | nil => simp
  | cons c t =>
    have hc : c ≠ '@' := fun heq => h (congrArg some heq)
    have hlo : c.toLower ≠ '@' := by
      by_cases hu : 65 ≤ c.toNat ∧ c.toNat ≤ 90
      · have hl : ∀ n : Fin 26,(Char.ofNat (65+n)).toLower ≠ '@' := by decide
        have hle := hl ⟨c.toNat - 65,by omega⟩
        simpa only [Nat.add_sub_cancel' hu.1,Char.ofNat_toNat] using hle
      · rwa [toLower_of_not_upper hu]
    exact fun heq => hlo (Option.some.inj heq)

/-- An answer that is kept is found under the same key. -/
theorem serves_of_key {name name' : Text} {kind : Option RecordKind}
    (hname : name.map Char.toLower=name'.map Char.toLower) :
    Serves (.insertLocal name kind [⟨name,.TXT,[],0,0⟩]) (.lookup name' kind) := by
  have hk : cacheKey name kind=cacheKey name' kind := by simp [cacheKey,hname]
  refine ⟨.empty,[],[],0,0,?_⟩
  simp [after,CacheOp.perform,AnswerCache.insertLocal,lookup_fst,hk,get_fst,AnswerCache.empty,ExpiringMap.put,
    ExpiringMap.erase,ExpiringMap.entryOf,Option.filter_some,localLifetime,ResolverCaches.secs]

theorem apart_of_own (ho : ∀ store reading,Stores lib place q store → Reads lib place' q' reading →
    Serves store reading →
    q.name=q'.name ∧ (q.queryType=q'.queryType ∨ Denies store)) : Apart lib q q' place place' := by
  match place, place' with
  | none, none =>
    intro hname hk hk'
    have hs := ho (.insertLocal (lib.nameText q.name) none [⟨lib.nameText q.name,.TXT,[],0,0⟩])
      (.lookup (lib.nameText q'.name) none)
      ⟨rfl,hk.symm,nofun⟩ ⟨rfl,hk'.symm,nofun⟩ (serves_of_key (by rw [hname]))
    exact hs.2.resolve_right id
  | some scope, some scope' =>
    intro ht hk hte
    obtain ⟨kind,hso⟩ := Option.ne_none_iff_exists'.mp hk
    exact (ho (.insertLocal (placedName lib q (some scope)) (some kind) [⟨placedName lib q (some scope),.TXT,[],0,0⟩])
      (.lookup (placedName lib q' (some scope')) (some kind)) ⟨rfl,hso.symm,fun _ => rfl⟩
      ⟨rfl,(ht ▸ hso).symm,fun _ => rfl⟩ (serves_of_key hte)).1
  | none, some _ | some _, none => trivial

theorem own_of_apart (hl : Legible lib q q') (ha : Apart lib q q' place place') (hst : Stores lib place q store)
    (hr : Reads lib place' q' reading) (hse : Serves store reading) : q.name=q'.name ∧ q.queryType=q'.queryType := by
  obtain ⟨kind,hke,hk,hs⟩ := hst.keyOf
  obtain ⟨kind',hke',hk'⟩ := hr.keyOf
  obtain ⟨ht,rfl⟩ := cacheKey_inj (keyOf_eq_of_serves hke hke' hse)
  have hsa : mapQueryTypeToKind q.queryType=mapQueryTypeToKind q'.queryType := hk.symm.trans hk'
  match place, place' with
  | none, none =>
    have hname := hl.distinct ht
    refine ⟨hname,?_⟩
    by_cases hn : mapQueryTypeToKind q.queryType=none
    · exact ha hname hn (hsa ▸ hn)
    · exact queryType_eq hsa hn
  | some scope, some scope' =>
    have hso : mapQueryTypeToKind q.queryType≠none := by
      rw [← hk]
      exact Option.isSome_iff_ne_none.mp (hs rfl)
    have hty := queryType_eq hsa hso
    exact ⟨ha hty hso ht,hty⟩
  | none, some scope =>
    have hh := congrArg head? ht
    exact absurd hh (head?_toLower_ne hl.bare.1)
  | some scope, none =>
    have hh := congrArg head? ht
    exact absurd hh.symm (head?_toLower_ne hl.bare.2)

end

/-- Everything a query does to the cache it does for a question, under that question's name and kind; and
what is kept for a question answers no other, unless it denies the name, exactly if the two are apart. -/
theorem entry_answers_own_iff {cfg : ServerConfig} (hlib : cfg.lib.Lawful) :
    (∀ {queryData bytes : Bytes} {sourceIp localIp : Option IpAddr} {proto : Proto} {log : ServerLog},
      Yields (handleQueryProto cfg queryData sourceIp localIp proto) log bytes →
        ∀ {o : LocalOp} {r : LocalRes o},⟨.held o,r⟩∈log →
        ∃ message asked,cfg.lib.fromBytes queryData=some message ∧ message.queries.head?=some asked ∧
          UsedFor cfg.lib (AnsweredIn cfg (upstreamQueries cfg.lib queryData message asked) log) asked o) ∧
    ∀ place place' q q',Legible cfg.lib q q' →
      ((∀ store reading,Stores cfg.lib place q store → Reads cfg.lib place' q' reading → Serves store reading →
          q.name=q'.name ∧ (q.queryType=q'.queryType ∨ Denies store)) ↔ Apart cfg.lib q q' place place') := by
  refine ⟨fun h _ _ ho => handleQueryProto_uses hlib h ho,fun place place' q q' hl => ⟨apart_of_own,fun ha => ?_⟩⟩
  intro store reading hst hr hs
  obtain ⟨hname,ht⟩ := own_of_apart hl ha hst hr hs
  exact ⟨hname,.inl ht⟩

section
open AuthenticData

def unstorable (code : UInt16) : Query := ⟨nameA,⟨code⟩,.IN⟩

theorem entry_answers_own_address : Legible forwardingConfig.lib ⟨nameA,.A,.IN⟩ ⟨nameA,.AAAA,.IN⟩ ∧
    ∀ store reading,Stores forwardingConfig.lib none ⟨nameA,.A,.IN⟩ store →
      Reads forwardingConfig.lib none ⟨nameA,.AAAA,.IN⟩ reading → Serves store reading → Denies store := by
  have hl : Legible forwardingConfig.lib ⟨nameA,.A,.IN⟩ ⟨nameA,.AAAA,.IN⟩ := ⟨fun _ => rfl,by decide,by decide⟩
  have ha : Apart forwardingConfig.lib ⟨nameA,.A,.IN⟩ ⟨nameA,.AAAA,.IN⟩ none none := fun _ hn => absurd hn (by decide)
  refine ⟨hl,fun store reading hst hr hs => ?_⟩
  have ho := ((entry_answers_own_iff forwardingConfig_lawful).2 none none _ _ hl).mpr ha store reading hst hr hs
  exact ho.2.resolve_left (by decide)

/-- That there is no CAA record denies every other type that cannot be stored. -/
theorem noData_denies_other : Stores forwardingConfig.lib none (unstorable 257)
      (.insertNegative (forwardingConfig.lib.nameText nameA) none .noData 300) ∧
    Reads forwardingConfig.lib none (unstorable 99) (.lookupNegative (forwardingConfig.lib.nameText nameA) none) ∧
    returned .empty [(0,.insertNegative (forwardingConfig.lib.nameText nameA) none .noData 300),
      (1,.lookupNegative (forwardingConfig.lib.nameText nameA) none)]=[.nothing,.negative (some .noData)] ∧
    returned .empty [(1,.lookupNegative (forwardingConfig.lib.nameText nameA) none)]=[.negative none] ∧
    (unstorable 257).queryType≠(unstorable 99).queryType :=
  ⟨⟨rfl,rfl,rfl,nofun⟩,⟨rfl,rfl,rfl,nofun⟩,by decide,by decide,by decide⟩

end

end RolodexDns.CacheQuestions
