import RolodexDns.AnswerCaches
import RolodexDns.AuthenticData

/-! Answers from the cache. A client without DO gets from it what came from upstream exactly if every
record of the answer survives the way through its row. -/
namespace RolodexDns.WarmAnswers
open DomainNames DnsRecords ProgramTraces ResolverCaches StoredRecords RecordConversions WireMessages List
open ServerOperations LocalAnswers UpstreamResolution QueryHandling AnswerCaches AuthenticData

section
variable {lib : TextLibrary} {r : Record} {row : DnsRecord}

def rowTypes : List RecordType := [.A,.AAAA,.CNAME,.MX,.TXT,.NS,.PTR]

theorem recordType_of_row (h : lib.dnsRecordToDbRecord r=some row) : r.recordType∈rowTypes := by
  unfold TextLibrary.dnsRecordToDbRecord at h
  unfold Record.recordType
  split at h
  case h_8 => cases h
  all_goals
    rename_i heq
    simp [heq,RData.recordType,rowTypes]

theorem recordType_of_kept (h : lib.KeptData r.data) : r.recordType∈rowTypes := by
  unfold Record.recordType
  cases hd : r.data <;> rw [hd] at h <;> simp [TextLibrary.KeptData,RData.recordType,rowTypes] at h ⊢

theorem wanted_of_rowType {qtype : Option RecordType} {dnssecOk : Bool} (h : r.recordType∈rowTypes) :
    dnssecRecordsWanted qtype dnssecOk r=true := by
  have hn : ∀ t∈rowTypes,t∉[RecordType.RRSIG,.NSEC,.NSEC3] := by decide
  simp [dnssecRecordsWanted,hn _ h]

end

def answerSection (ask : Asked) (reply : Reply) : List Record :=
  if reply.withEdns then
    reply.answers.filter (dnssecRecordsWanted (ask.message.queries.head?.map Query.queryType) (dnssecOk ask.ctx))
  else reply.answers

/-- The records of an answer that a client without DO is due. -/
def due (ask : Asked) (answers : List Record) : List Record :=
  answers.filter (dnssecRecordsWanted (some ask.question.queryType) false)

/-- What the client gets from the cache, if it gets anything. -/
def hitAnswer (cfg : ServerConfig) (ask : Asked) (held : (o : LocalOp) → LocalRes o) (now : Nat) (c : AnswerCache) :
    Option (ResponseCode × List Record) :=
  match (answeredIn (AnswerCache.perform held now) (cachedAnswer cfg ask) c).2 with
  | some (.answer reply) => some (reply.rcode,answerSection ask reply)
  | _ => none

section
variable {cfg : ServerConfig} {ask : Asked} {held : (o : LocalOp) → LocalRes o} {now : Nat} {c : AnswerCache}

theorem hitAnswer_eq (hc : cfg.cacheEnabled=true) (hh : (c.lookup now ask.qname ask.recordKind).1≠[]) :
    hitAnswer cfg ask held now c=some (.NoError,answerSection ask
      (.edns .NoError ((c.lookup now ask.qname ask.recordKind).1.filterMap cfg.lib.dbRecordToDnsRecord) false)) := by
  have ha : (answeredIn (AnswerCache.perform held now) (cachedAnswer cfg ask) c).2=some (.answer
      (.edns .NoError ((c.lookup now ask.qname ask.recordKind).1.filterMap cfg.lib.dbRecordToDnsRecord) false)) := by
    unfold cachedAnswer
    rw [hc]
    change (answeredIn _ (if (!(c.lookup now ask.qname ask.recordKind).1.isEmpty)=true then _ else _) _).2=_
    rw [if_pos (by simpa using hh)]
    rfl
  rw [hitAnswer,ha]
  rfl

variable {answers : List Record} {ttl : Nat}

/-- What comes out of the cache is what is left of the records that went in. -/
theorem content_answerSection (ht : cfg.lib.toTextLibrary.Lawful)
    {rcode : ResponseCode} {authoritative : Bool} :
    (answerSection ask (.edns rcode (((answers.filterMap cfg.lib.dnsRecordToDbRecord).map fun r =>
        { r with ttl := ttl }).filterMap cfg.lib.dbRecordToDnsRecord) authoritative)).map content =
      answers.filterMap cfg.lib.restored := by
  have hal : ∀ r∈((answers.filterMap cfg.lib.dnsRecordToDbRecord).map fun r =>
      { r with ttl := ttl }).filterMap cfg.lib.dbRecordToDnsRecord,
      dnssecRecordsWanted (ask.message.queries.head?.map Query.queryType) (dnssecOk ask.ctx) r=true := by
    intro r hr
    obtain ⟨aged,ha,hr⟩ := mem_filterMap.mp hr
    obtain ⟨row,hro,rfl⟩ := mem_map.mp ha
    obtain ⟨original,-,ho⟩ := mem_filterMap.mp hro
    have hre : cfg.lib.restored original=some (content r) := by
      have hc : (cfg.lib.dbRecordToDnsRecord { row with ttl := ttl }).map content =
          (cfg.lib.dbRecordToDnsRecord row).map content := content_setTtl row ttl
      rw [hr] at hc
      rw [TextLibrary.restored,ho,Option.bind_some,← hc]
      rfl
    exact wanted_of_rowType (recordType_of_kept (kept_of_restored ht hre).2)
  change (filter _ (((answers.filterMap cfg.lib.dnsRecordToDbRecord).map fun r =>
    { r with ttl := ttl }).filterMap cfg.lib.dbRecordToDnsRecord)).map content=_
  rw [filter_eq_self.mpr hal,filterMap_map,map_filterMap,filterMap_filterMap]
  refine filterMap_congr fun r _ => ?_
  unfold TextLibrary.restored
  cases cfg.lib.dnsRecordToDbRecord r with
  | none => rfl
  | some row => exact content_setTtl row ttl

theorem cacheAnswers_inv {question : Query} {log : List ((o : LocalOp) × LocalRes o)}
    (h : Yields (cacheAnswers cfg question answers) log ()) {name : Text} {kind : Option RecordKind}
    {records : List DnsRecord} (hi : ⟨.cacheInsert name kind records ttl,()⟩∈log) :
    cfg.cacheEnabled=true ∧ name=cfg.lib.nameText question.name ∧ kind=mapQueryTypeToKind question.queryType ∧
      records=answers.filterMap cfg.lib.dnsRecordToDbRecord ∧ records≠[] := by
  unfold cacheAnswers at h
  dsimp only at h
  split_ifs at h with hc hr
  · obtain rfl := h.perform_inv
    cases mem_singleton.mp hi
    exact ⟨hc,rfl,rfl,rfl,by simpa using hr⟩
  all_goals
    obtain ⟨rfl,-⟩ := h.pure_inv
    cases hi

/-- A later hit says what the answer said, as far as a client without DO is due it, exactly if each of
those records is of a type that is kept and its names read back from their text. -/
theorem warm_hit_iff (htext : cfg.lib.toTextLibrary.Lawful) {queryData : Bytes} {sourceIp localIp : Option IpAddr}
    (hread : readQuery cfg queryData sourceIp localIp=.ok ask) {answers : List Record}
    {log : List ((o : LocalOp) × LocalRes o)} (hstore : Yields (cacheAnswers cfg ask.question answers) log ())
    {name : Text} {kind : Option RecordKind} {records : List DnsRecord} {ttl stored : Nat}
    (hinsert : ⟨.cacheInsert name kind records ttl,()⟩∈log) (httl : ttl≠0) {between : List CacheEvent}
    (hbetween : ∀ event∈between,event.By now ∧ ¬ event.Writes (cacheKey name kind)) (hlive : now<stored+secs ttl) :
    ∃ served,hitAnswer cfg ask held now (between.foldl CacheEvent.next (c.insert stored name kind records ttl)) =
        some (.NoError,served) ∧
      ((∀ x,x∈served.map content ↔ x∈(due ask answers).map content) ↔
        ∀ r∈due ask answers,cfg.lib.ReadsBack r.name ∧ cfg.lib.KeptData r.data) := by
  simp only [← survives_iff htext]
  obtain ⟨hc,rfl,rfl,rfl,hne⟩ := cacheAnswers_inv hstore hinsert
  obtain ⟨-,hh,ha⟩ := readQuery_ok hread
  have hq : ask.qname=cfg.lib.nameText ask.question.name := by rw [ha]
  generalize hwa : between.foldl CacheEvent.next (c.insert stored _ _ _ ttl)=warm
  have he : warm.memory.entryOf (cacheKey ask.qname ask.recordKind) =
      some ⟨⟨answers.filterMap cfg.lib.dnsRecordToDbRecord,false⟩,stored+secs ttl⟩ := by
    rw [← hwa,hq]
    exact entryOf_foldl (entryOf_insert_self hne httl) hlive hbetween
  have hl := lookup_upstream he hlive
  refine ⟨_,hitAnswer_eq hc ?_,?_⟩
  · rw [hl]
    simpa using hne
  · rw [hl,content_answerSection htext]
    have hd : ∀ r∈due ask answers,r∈answers ∧ dnssecRecordsWanted (some ask.question.queryType) false r=true :=
      fun r hr => mem_filter.mp hr
    have hi : (∀ x,x∈answers.filterMap cfg.lib.restored ↔ x∈(due ask answers).map content) ↔
        ∀ r∈answers,dnssecRecordsWanted (some ask.question.queryType) false r=true → cfg.lib.Survives r :=
      restored_iff htext fun r row hro => wanted_of_rowType (recordType_of_row hro)
    refine hi.trans ⟨fun h r hr => h r (hd r hr).1 (hd r hr).2,fun h r hr hw => h r (mem_filter.mpr ⟨hr,hw⟩)⟩

end

def nameB : Name := ⟨[⟨[98],by decide,by decide,by decide⟩],by decide⟩

def serviceQuery : Packet := { Packet.new with id := 1, recursionDesired := true, queries := [⟨nameA,⟨33⟩,.IN⟩] }

def serviceQueryBytes : Bytes := [0,1,1,0,0,1,0,0,0,0,0,0,1,97,0,0,33,0,1]

def serviceConfig : ServerConfig :=
  { forwardingConfig with
    lib := { tableLibrary [(serviceQuery,serviceQueryBytes)] with toTextLibrary := plainText [nameA,nameB] } }

def serviceAsk : Asked :=
  ⟨serviceQueryBytes,serviceQuery,none,⟨nameA,⟨33⟩,.IN⟩,serviceConfig.lib.nameText nameA,none,none⟩

def aliasRecord : Record := ⟨nameA,.IN,60,.cname nameB⟩
def serviceRecord : Record := ⟨nameB,.IN,60,.other ⟨33⟩ [0,0,0,0,0,80,0]⟩

def warmCache (answers : List Record) : AnswerCache :=
  AnswerCache.empty.insert 0 (serviceConfig.lib.nameText nameA) (some .SRV)
    (answers.filterMap serviceConfig.lib.dnsRecordToDbRecord) 60

/-- The alias alone comes back from the cache as it was. -/
theorem warm_hit_iff_alias :
    readQuery serviceConfig serviceQueryBytes none none=.ok serviceAsk ∧
      ∃ served,hitAnswer serviceConfig serviceAsk holdsNothing (secs 5)
        (warmCache [aliasRecord])=some (.NoError,served) ∧
        ∀ x,x∈served.map content ↔ x∈(due serviceAsk [aliasRecord]).map content := by
  have hr : readQuery serviceConfig serviceQueryBytes none none=.ok serviceAsk := rfl
  have hst := yields_answeredBy holdsNothing (cacheAnswers serviceConfig serviceAsk.question [aliasRecord])
  obtain ⟨served,hs,hi⟩ : ∃ served,hitAnswer serviceConfig serviceAsk holdsNothing (secs 5) (warmCache [aliasRecord]) =
      some (.NoError,served) ∧ _ :=
    warm_hit_iff (plainText_lawful _) hr hst mem_cons_self (by decide) (forall_mem_nil _) (by decide)
  exact ⟨hr,served,hs,hi.mpr (forall_mem_singleton.mpr ⟨rfl,rfl⟩)⟩

/-- The service is lost: what comes back from the cache is the alias alone. -/
theorem warm_hit_drops :
    readQuery serviceConfig serviceQueryBytes none none=.ok serviceAsk ∧
      Yields (cacheAnswers serviceConfig serviceAsk.question [aliasRecord,serviceRecord])
        [⟨.cacheInsert (serviceConfig.lib.nameText nameA) (some .SRV)
          ([aliasRecord,serviceRecord].filterMap serviceConfig.lib.dnsRecordToDbRecord) 60,()⟩] () ∧
      ((hitAnswer serviceConfig serviceAsk holdsNothing (secs 5) (warmCache [aliasRecord,serviceRecord])).map
        fun hit => (hit.1,hit.2.map content))=some (.NoError,[content aliasRecord]) ∧
      (due serviceAsk [aliasRecord,serviceRecord]).map content=[content aliasRecord,content serviceRecord] :=
  ⟨rfl,yields_answeredBy holdsNothing (cacheAnswers serviceConfig serviceAsk.question [aliasRecord,serviceRecord]),
    by decide +kernel,by decide +kernel⟩

end RolodexDns.WarmAnswers
