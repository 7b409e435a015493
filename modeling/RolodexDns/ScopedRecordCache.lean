import RolodexDns.NetworkScopes
import RolodexDns.StoredRdata

/-! The cache of scoped records against their table. Records are cached under keys of scope, name and type put
together with colons; a removal deletes the rows it is asked to and evicts every key that starts like its own. -/
namespace RolodexDns.ScopedRecordCache
open StoredRecords RecordDatabase NetworkScopes GroupedCaches SharedStores List

section
variable (fmt : ScopeFormats) (s : ScopeStore)

/-- The store with the record, or nothing if there is no such scope for the row to refer to. -/
def ScopeStore.addScopedRecord (scope : Text) (record : DnsRecord) : Option ScopeStore :=
  let normalized := normalizeName fmt.toLowercase record.name
  let cached := { record with name := normalized }
  if s.hasScope scope then
    some { s with
      scopedRows := s.scopedRows++[(scope,cached)]
      scopedCache := push s.scopedCache (scopedRecordCacheKey scope normalized (some record.recordType)) cached }
  else none

/-- The rows a removal is asked for: any type if none is given, any value if it is empty. -/
def isRemoved (scope normalized : Text) (kind : Option RecordKind) (value : Text) (row : Text × DnsRecord) : Bool :=
  row.1=scope && row.2.name=normalized && kind.all (row.2.recordType = ·) && (value.isEmpty || row.2.value=value)

/-- The number of rows that are removed, and the store without them. -/
def ScopeStore.removeScopedRecords (scope name : Text) (kind : Option RecordKind) (value : Text) : Nat × ScopeStore :=
  let normalized := normalizeName fmt.toLowercase name
  (s.scopedRows.countP (isRemoved scope normalized kind value),
    { s with
      scopedRows := s.scopedRows.filter fun row => !isRemoved scope normalized kind value row
      scopedCache := evictPrefix (scope ++ ':' :: normalized) s.scopedCache })

inductive ScopeCall where
  | createNetworkScope (name homeDomain : Text)
  | deleteNetworkScope (name : Text)
  | addScopedRecord (scope : Text) (record : DnsRecord)
  | removeScopedRecords (scope name : Text) (kind : Option RecordKind) (value : Text)

def ScopeStore.apply : ScopeCall → ScopeStore
  | .createNetworkScope name homeDomain => ((scopeStore fmt).runAlone (createNetworkScope fmt name homeDomain) s).2
  | .deleteNetworkScope name => ((scopeStore fmt).runAlone (deleteNetworkScope name) s).2
  | .addScopedRecord scope record => (ScopeStore.addScopedRecord fmt s scope record).getD s
  | .removeScopedRecords scope name kind value => (ScopeStore.removeScopedRecords fmt s scope name kind value).2

/-- The cache is what a restart would load, and has the rows of each scope, name and type. -/
structure Coherent (s : ScopeStore) : Prop where
  loaded : ∀ key,s.scopedCache.lookup key=(s.restart fmt).scopedCache.lookup key
  grouped : ∀ scope name kind,lookupScopedExact s.scopedCache scope name (some kind) =
    (s.scopedRows.filter fun row => row.1=scope ∧ row.2.name=name ∧ row.2.recordType=kind).map Prod.snd

/-- The colons of the keys are those between their parts. -/
def Plain (rows : List (Text × DnsRecord)) : Prop := ∀ row∈rows, ':' ∉ row.1 ∧ ':' ∉ row.2.name

/-- A call that evicts no rows but those it deletes, and adds none under a key that can be read in two ways. -/
def Safe : ScopeCall → Prop
  | .createNetworkScope _ _ => True
  | .deleteNetworkScope name => ∀ row∈s.scopedRows,(name++[':']).isPrefixOf (recordKey row)=true → row.1=name
  | .addScopedRecord scope record => s.hasScope scope=true → ':' ∉ scope ∧
      ':' ∉ normalizeName fmt.toLowercase record.name
  | .removeScopedRecords scope name kind value => ∀ row∈s.scopedRows,
    (scope ++ ':' :: normalizeName fmt.toLowercase name).isPrefixOf (recordKey row)=true →
      isRemoved scope (normalizeName fmt.toLowercase name) kind value row=true

end

section
variable {scope name : Text} {kind : RecordKind} {row : Text × DnsRecord}

theorem splitOn_append_colon (front back : Text) :
    (front ++ ':' :: back).splitOn ':' = front.splitOn ':' ++ back.splitOn ':' := by
  rw [splitOn,splitOnP_append_cons _ _ (by simp)]
  rfl

theorem splitOn_of_notMem {s : Text} (h : ':' ∉ s) : s.splitOn ':' = [s] :=
  splitOnP_eq_singleton fun c hc => by simpa using fun hco : c = ':' => h (hco ▸ hc)

theorem splitOn_colon_ne_nil (s : Text) : s.splitOn ':' ≠ [] := splitOnP_ne_nil _ s

/-- A key with two colons can be read in one way only. -/
theorem recordKey_eq_iff (hpl : ':' ∉ row.1 ∧ ':' ∉ row.2.name) :
    recordKey row=scopedRecordCacheKey scope name (some kind) ↔ row.1=scope ∧ row.2.name=name ∧
      row.2.recordType=kind := by
  constructor
  · intro h
    have hp := congrArg (splitOn ':') h
    simp only [recordKey,scopedRecordCacheKey,append_assoc,cons_append,splitOn_append_colon,
      splitOn_of_notMem hpl.1,splitOn_of_notMem hpl.2,splitOn_of_notMem (RecordKind.colon_notMem_asStr _)] at hp
    have hl := congrArg length hp
    have hsc := length_pos_iff.mpr (splitOn_colon_ne_nil scope)
    have hna := length_pos_iff.mpr (splitOn_colon_ne_nil name)
    simp only [length_append,length_cons,length_nil] at hl
    obtain ⟨s,hs⟩ := length_eq_one_iff.mp (show (scope.splitOn ':').length=1 by omega)
    obtain ⟨n,hn⟩ := length_eq_one_iff.mp (show (name.splitOn ':').length=1 by omega)
    rw [hs,hn] at hp
    simp only [cons_append,nil_append,cons.injEq,and_true] at hp
    have hj (t : Text) : [':'].intercalate (t.splitOn ':')=t := intercalate_splitOn ':'
    refine ⟨?_,?_,StoredRdata.asStr_injective hp.2.2⟩
    · rw [hp.1,← hj scope,hs]
      simp [intercalate]
    · rw [hp.2.1,← hj name,hn]
      simp [intercalate]
  · rintro ⟨rfl,rfl,rfl⟩
    rfl

/-- A key with more colons can be read in another way. -/
theorem exists_other_reading (h : ¬ (':' ∉ row.1 ∧ ':' ∉ row.2.name)) :
    ∃ scope name,recordKey row=scopedRecordCacheKey scope name (some row.2.recordType) ∧ row.1≠scope := by
  rcases not_and_or.mp h with hsc | hn
  · obtain ⟨front,back,hs⟩ := append_of_mem (not_not.mp hsc)
    refine ⟨front,back ++ ':' :: row.2.name,?_,fun heq => ?_⟩
    · simp [recordKey,scopedRecordCacheKey,hs]
    · have hl := congrArg length (hs.symm.trans heq)
      simp at hl
  · obtain ⟨front,back,hs⟩ := append_of_mem (not_not.mp hn)
    refine ⟨row.1 ++ ':' :: front,back,?_,fun heq => ?_⟩
    · simp [recordKey,scopedRecordCacheKey,hs]
    · have hl := congrArg length heq
      simp at hl

end

section
variable {fmt : ScopeFormats} {s : ScopeStore}

variable {rows : List (Text × DnsRecord)}

theorem lookupScopedExact_of_mirrors {cache : ScopedCache}
    (h : Mirrors recordKey Prod.snd cache rows) (scope name : Text) (kind : RecordKind) :
    lookupScopedExact cache scope name (some kind) =
      (rows.filter fun row => recordKey row=scopedRecordCacheKey scope name (some kind)).map Prod.snd :=
  getD_lookup h _

/-- A cache of the table's rows by key has them by scope, name and type exactly if the keys are plain. -/
theorem coherent_iff : Coherent fmt s ↔ Mirrors recordKey Prod.snd s.scopedCache s.scopedRows ∧ Plain s.scopedRows := by
  constructor
  · intro h
    have hm : Mirrors recordKey Prod.snd s.scopedCache s.scopedRows := mirrors_iff_load.mpr h.loaded
    refine ⟨hm,fun row hro => ?_⟩
    by_contra hc
    obtain ⟨scope,name,hke,ho⟩ := exists_other_reading hc
    have hg := congrArg length (h.grouped scope name row.2.recordType)
    rw [lookupScopedExact_of_mirrors hm,length_map,length_map] at hg
    -- every row of the scope, name and type has the key, and so has the row that is not of the scope
    have hs : List.Sublist (s.scopedRows.filter fun r => r.1=scope ∧ r.2.name=name ∧ r.2.recordType=row.2.recordType)
        (s.scopedRows.filter fun r => recordKey r=scopedRecordCacheKey scope name (some row.2.recordType)) := by
      refine monotone_filter_right _ fun r hr => ?_
      obtain ⟨rfl,rfl,hk⟩ := of_decide_eq_true hr
      exact decide_eq_true (by rw [recordKey,hk])
    have hme : row∈s.scopedRows.filter fun r => recordKey r=scopedRecordCacheKey scope name (some row.2.recordType) :=
      mem_filter.mpr ⟨hro,decide_eq_true hke⟩
    rw [← hs.eq_of_length hg.symm] at hme
    exact ho (of_decide_eq_true (mem_filter.mp hme).2).1
  · rintro ⟨hm,hp⟩
    refine ⟨mirrors_iff_load.mp hm,fun scope name kind => ?_⟩
    rw [lookupScopedExact_of_mirrors hm]
    refine congrArg _ (filter_congr fun row hro => decide_eq_decide.mpr ?_)
    exact recordKey_eq_iff (hp row hro)

theorem Plain.filter (h : Plain rows) (keep : Text × DnsRecord → Bool) :
    Plain (rows.filter keep) :=
  fun row hr => h row (mem_of_mem_filter hr)

/-- What a removal leaves is right exactly if all rows whose keys start so were to be deleted. -/
theorem coherent_remove_iff {s' : ScopeStore} {start : Text} {drop : Text × DnsRecord → Bool} (h : Coherent fmt s)
    (hd : ∀ row∈s.scopedRows,drop row=true → start.isPrefixOf (recordKey row)=true)
    (hr : s'.scopedRows=s.scopedRows.filter fun row => !drop row)
    (hc : s'.scopedCache=evictPrefix start s.scopedCache) :
    Coherent fmt s' ↔ ∀ row∈s.scopedRows,start.isPrefixOf (recordKey row)=true → drop row=true := by
  obtain ⟨hm,hp⟩ := coherent_iff.mp h
  rw [coherent_iff,hr,hc,← mirrors_retain_iff hm hd]
  exact and_iff_left (hp.filter _)

theorem create_scoped (fmt : ScopeFormats) (s : ScopeStore) (name homeDomain : Text) :
    (ScopeStore.apply fmt s (.createNetworkScope name homeDomain)).scopedRows=s.scopedRows ∧
      (ScopeStore.apply fmt s (.createNetworkScope name homeDomain)).scopedCache=s.scopedCache := by
  simp only [ScopeStore.apply,createNetworkScope,Store.runAlone_perform]
  split
  · exact ⟨rfl,rfl⟩
  · simp only [Store.runAlone_perform]
    split <;> simp only [Store.runAlone_perform,Store.runAlone_pure,scopeStore,ScopeStore.exec] <;>
      split <;> exact ⟨rfl,rfl⟩

theorem delete_scoped (fmt : ScopeFormats) (s : ScopeStore) (name : Text) :
    (ScopeStore.apply fmt s (.deleteNetworkScope name)).scopedRows=s.scopedRows.filter (·.1≠name) ∧
      (ScopeStore.apply fmt s (.deleteNetworkScope name)).scopedCache=evictPrefix (name++[':']) s.scopedCache := by
  simp only [ScopeStore.apply,deleteNetworkScope,Store.runAlone_perform]
  split <;> exact ⟨rfl,rfl⟩

theorem coherent_apply_iff (h : Coherent fmt s) (call : ScopeCall) :
    Coherent fmt (ScopeStore.apply fmt s call) ↔ Safe fmt s call := by
  cases call with
  | createNetworkScope name homeDomain =>
    obtain ⟨hro,hc⟩ := create_scoped fmt s name homeDomain
    refine iff_of_true (coherent_iff.mpr ?_) trivial
    rw [hro,hc]
    exact coherent_iff.mp h
  | deleteNetworkScope name =>
    obtain ⟨hro,hc⟩ := delete_scoped fmt s name
    have hd : ∀ row∈s.scopedRows,decide (row.1=name)=true → (name++[':']).isPrefixOf (recordKey row)=true := by
      intro row _ hn
      rw [ isPrefixOf_iff_prefix,← of_decide_eq_true hn]
      exact ⟨row.2.name ++ ':' :: row.2.recordType.asStr,by simp [recordKey,scopedRecordCacheKey]⟩
    refine (coherent_remove_iff h hd (by simpa using hro) hc).trans ?_
    exact forall₂_congr fun row _ => by simp
  | addScopedRecord scope record =>
    simp only [ScopeStore.apply,ScopeStore.addScopedRecord,Safe]
    split
    · rename_i hs
      obtain ⟨hm,hp⟩ := coherent_iff.mp h
      have hpu := hm.push (scope,{ record with name := normalizeName fmt.toLowercase record.name })
      refine coherent_iff.trans ((and_iff_right hpu).trans ⟨fun ha _ => ha _ mem_concat_self,fun hne => ?_⟩)
      exact forall_mem_append.mpr ⟨hp,forall_mem_singleton.mpr (hne hs)⟩
    · rename_i hs
      exact iff_of_true h fun he => absurd he hs
  | removeScopedRecords scope name kind value =>
    refine coherent_remove_iff h (fun row _ hr => ?_) rfl rfl
    simp only [isRemoved,Bool.and_eq_true,decide_eq_true_eq] at hr
    obtain ⟨⟨⟨rfl,hn⟩,-⟩,-⟩ := hr
    rw [ isPrefixOf_iff_prefix,← hn]
    exact ⟨':' :: row.2.recordType.asStr,by simp [recordKey,scopedRecordCacheKey]⟩

/-- From a start on, the cache is right after every call exactly if the rows' scopes and names are without
colons, and every removal is of all the rows whose keys start like its own. -/
theorem scoped_cache_coherent_iff (fmt : ScopeFormats) (s : ScopeStore) (calls : List ScopeCall) :
    (∀ t∈states (ScopeStore.apply fmt) (s.restart fmt) calls,Coherent fmt t) ↔
      Plain s.scopedRows ∧ Along (ScopeStore.apply fmt) (Safe fmt) (s.restart fmt) calls := by
  have hs : Coherent fmt (s.restart fmt) ↔ Plain s.scopedRows :=
    coherent_iff.trans (and_iff_right (mirrors_load s.scopedRows))
  have hc (s : ScopeStore) (call : ScopeCall) (h : Coherent fmt s) := coherent_apply_iff h call
  constructor
  · intro ha
    have hf := ha _ (mem_states_self calls)
    exact ⟨hs.mp hf,(forall_states_iff hc hf calls).mp ha⟩
  · rintro ⟨hp,hr⟩
    exact (forall_states_iff hc (hs.mpr hp) calls).mpr hr

/-- Of two addresses of a host one is removed, and neither is found until the next start; a name is removed,
and with it a longer one; a scope is deleted, and with it the records of another. -/
theorem scoped_cache_incoherent :
    ¬ (∀ t∈states (ScopeStore.apply plainFormats) (emptyStore.restart plainFormats)
        [.createNetworkScope "office" "office.home",
          .addScopedRecord "office" ⟨"nas.office.home",.A,"10.0.0.1",300,0⟩,
          .addScopedRecord "office" ⟨"nas.office.home",.A,"10.0.0.2",300,0⟩,
          .removeScopedRecords "office" "nas.office.home" (some .A) "10.0.0.1"], Coherent plainFormats t) ∧
      ¬ (∀ t∈states (ScopeStore.apply plainFormats) (emptyStore.restart plainFormats)
        [.createNetworkScope "office" "office.home",
          .addScopedRecord "office" ⟨"nas.office.home",.A,"10.0.0.1",300,0⟩,
          .removeScopedRecords "office" "nas" none []], Coherent plainFormats t) ∧
      ¬ (∀ t∈states (ScopeStore.apply plainFormats) (emptyStore.restart plainFormats)
        [.createNetworkScope "lab:b" "lab:b",.createNetworkScope "lab" "lab",
          .addScopedRecord "lab:b" ⟨"nas",.A,"10.0.0.1",300,0⟩,.deleteNetworkScope "lab"],
            Coherent plainFormats t) := by
  refine ⟨fun h => ?_,fun h => ?_,fun h => ?_⟩
  · have hl := (h _ (.tail _ (.tail _ (.tail _ (.tail _ (.head _)))))).loaded "office:nas.office.home.:A"
    exact absurd hl (by decide +kernel)
  · have hl := (h _ (.tail _ (.tail _ (.tail _ (.head _))))).loaded "office:nas.office.home.:A"
    exact absurd hl (by decide +kernel)
  · have hl := (h _ (.tail _ (.tail _ (.tail _ (.tail _ (.head _)))))).loaded "lab:b:nas.:A"
    exact absurd hl (by decide +kernel)

end

end RolodexDns.ScopedRecordCache
