import RolodexDns.CacheQuestions
import RolodexDns.PersistentCaches

/-! The answer cache over a restart. The memory has one entry for a question, which an insertion replaces;
the table has a row for every value, which only an insertion of the same value replaces. Both are a fold
over the insertions, and the last insertion of a key says what is under it. -/
namespace RolodexDns.CacheRestarts
open ExpiringMaps ResolverCaches StoredRecords StoredRdata AnswerCaches WriteBehind PersistentCaches List ExpiringMap

/-- What a record says, but for its TTL. -/
def content (r : DnsRecord) : Text × RecordKind × Text × Nat := (r.name,r.recordType,r.value,r.priority)

section
variable {now : Nat} {m : ExpiringMap Text CachedEntry} {loaded : List (DnsRecord × Nat)}

def recordsAt (m : ExpiringMap Text CachedEntry) (key : Text) : List DnsRecord :=
  ((m.entryOf key).map (·.value.records)).getD []

def Fresh (now : Nat) (m : ExpiringMap Text CachedEntry) : Prop :=
  m.All fun _ e => now<e.expiresAt ∧ e.value.isLocal=false

variable {key name : Text} {kind : Option RecordKind}

theorem recordsAt_loadRecord {loaded : DnsRecord × Nat} :
    recordsAt (loadRecord now m loaded) key =
      recordsAt m key++if cacheKey loaded.1.name (some loaded.1.recordType)=key then [loaded.1] else [] := by
  unfold loadRecord
  split_ifs with hk
  · rw [← hk]
    cases he : m.entryOf (cacheKey loaded.1.name (some loaded.1.recordType)) with
    | none | some e => simp [recordsAt,he,entryOf_put_self]
  · cases he : m.entryOf (cacheKey loaded.1.name (some loaded.1.recordType)) with
    | none | some e => simp [recordsAt,he,entryOf_put_of_ne (Ne.symm hk)]

theorem fresh_loadRecord {loaded : DnsRecord × Nat} (h : Fresh now m) (hl : 0<loaded.2) :
    Fresh now (loadRecord now m loaded) := by
  have he : now<now+secs loaded.2 := Nat.lt_add_of_pos_right (Nat.mul_pos hl (by decide))
  unfold loadRecord
  intro x hx
  dsimp only at hx
  split at hx
  · rcases mem_put hx with rfl | hx
    · exact ⟨he,rfl⟩
    · exact h x hx
  · rename_i e hen
    obtain ⟨y,hy,rfl⟩ := Option.map_eq_some_iff.mp hen
    obtain ⟨hb,hu⟩ := h y (mem_of_find?_eq_some hy)
    rcases mem_put hx with rfl | hx
    · exact ⟨Nat.lt_min.mpr ⟨hb,he⟩,hu⟩
    · exact h x hx

theorem recordsAt_loaded :
    recordsAt (loaded.foldl (loadRecord now) m) key =
      recordsAt m key++(loaded.filter fun l => cacheKey l.1.name (some l.1.recordType)=key).map Prod.fst := by
  induction loaded generalizing m with
  | nil => simp
  | cons l loaded ih =>
    rw [foldl_cons,ih,recordsAt_loadRecord,append_assoc,filter_cons]
    by_cases hk : cacheKey l.1.name (some l.1.recordType)=key <;> simp [hk]

theorem fresh_loaded (h : Fresh now m) (hli : ∀ l∈loaded,0<l.2) :
    Fresh now (loaded.foldl (loadRecord now) m) := by
  induction loaded generalizing m with
  | nil => exact h
  | cons l loaded ih =>
    obtain ⟨hl,hlo⟩ := forall_mem_cons.mp hli
    exact ih (fresh_loadRecord h hl) hlo

theorem lookup_fresh {c : AnswerCache} (h : Fresh now c.memory) :
    (c.lookup now name kind).1.map content=(recordsAt c.memory (cacheKey name kind)).map content := by
  rw [lookup_fst,get_fst]
  unfold recordsAt
  cases he : c.memory.entryOf (cacheKey name kind) with
  | none => rfl
  | some e =>
    obtain ⟨x,hx,rfl⟩ := Option.map_eq_some_iff.mp he
    obtain ⟨hl,hu⟩ := h x (mem_of_find?_eq_some hx)
    rw [Option.filter_some_pos (by simpa using hl)]
    simp [hu,content]

variable (fmt : FormatLibrary)

theorem mem_loadFromDisk {rows : List CacheRow} {x : Text × RecordKind × Text × Nat} :
    x∈((loadFromDisk fmt now rows).lookup now name kind).1.map content ↔
      ∃ row∈rows,now / secs 1<row.cachedAt+row.ttl ∧
        cacheKey row.name (some ((parseKind fmt row.recordType).getD .A))=cacheKey name kind ∧
        x=(row.name,(parseKind fmt row.recordType).getD .A,row.value,0) := by
  have hli : ∀ l∈cacheLoadAll fmt now rows,0<l.2 := by
    intro l hl
    obtain ⟨row,-,hr⟩ := mem_filterMap.mp hl
    dsimp only at hr
    split at hr
    · cases hr
    · cases hr
      omega
  have hf : Fresh now (loadFromDisk fmt now rows).memory := fresh_loaded (forall_mem_nil _) hli
  rw [lookup_fresh hf,loadFromDisk,recordsAt_loaded]
  simp only [recordsAt,ExpiringMap.entryOf,find?_nil,Option.map_none,Option.getD_none,nil_append,map_map,mem_map,
    mem_filter,cacheLoadAll,mem_filterMap]
  constructor
  · rintro ⟨l,⟨⟨row,hr,hl⟩,hk⟩,rfl⟩
    split at hl
    · cases hl
    · rename_i hre
      cases hl
      exact ⟨row,hr,by omega,by simpa using hk,rfl⟩
  · rintro ⟨row,hr,hre,hk,rfl⟩
    refine ⟨_,⟨⟨row,hr,if_neg (by omega)⟩,by simpa using hk⟩,rfl⟩

end

section
variable {b : Nat} {inserts : List Insertion} {r : Insertion} {k : RowKey} {p : Insertion → Bool}

def keyOf (r : Insertion) : Text := cacheKey r.name r.kind

def rowKeys (r : Insertion) : List RowKey :=
  r.records.map fun record => (r.name,(r.kind.getD record.recordType).asStr,record.value)

def Live (b : Nat) (r : Insertion) : Prop := b<r.now+secs r.ttl

/-- The records are those of the question and have no priority. -/
def Plain (r : Insertion) : Prop :=
  ∃ kind,r.kind=some kind ∧ ∀ record∈r.records,record.name=r.name ∧ record.recordType=kind ∧ record.priority=0

/-- What was last inserted of those that meet a test. -/
def last (p : Insertion → Bool) (inserts : List Insertion) : Option Insertion := inserts.reverse.find? p

theorem last_append :
    last p (inserts++[r])=if p r then some r else last p inserts := by
  unfold last
  rw [reverse_append,reverse_singleton,singleton_append,find?_cons]
  cases p r <;> rfl

theorem last_eq_some :
    last p inserts=some r ↔ p r=true ∧ ∃ before later,inserts=before++r::later ∧ ∀ r'∈later,p r'=false := by
  unfold last
  rw [find?_eq_some_iff_append]
  refine and_congr_right fun _ => ?_
  constructor
  · rintro ⟨later,before,heq,hl⟩
    refine ⟨before.reverse,later.reverse,?_,fun r' hr' => by simpa using hl r' (mem_reverse.mp hr')⟩
    rw [← reverse_reverse inserts,heq]
    simp
  · rintro ⟨before,later,rfl,hl⟩
    exact ⟨later.reverse,before.reverse,by simp,fun r' hr' => by simpa using hl r' (mem_reverse.mp hr')⟩

/-- The memory: the last insertion of a question is under its key. -/
theorem entryOf_remembered (h : ∀ r∈inserts,answers.persists r=true) {key : Text} :
    (inserts.foldl (fun c r => answers.remember r c) .empty).memory.entryOf key =
      (last (keyOf · = key) inserts).map fun r => ⟨⟨r.records,false⟩,r.now+secs r.ttl⟩ := by
  induction inserts using reverseRecOn with
  | nil => rfl
  | append_singleton inserts r ih =>
    obtain ⟨hb,hr⟩ := forall_mem_append.mp h
    have hp : ¬ (r.records.isEmpty || decide (r.ttl=0))=true := by
      simpa [answers] using hr r (mem_singleton.mpr rfl)
    rw [foldl_append,foldl_cons,foldl_nil,last_append]
    have hpu (c : AnswerCache) : (answers.remember r c).memory=c.memory.put (keyOf r) ⟨⟨r.records,false⟩,
      r.now+secs r.ttl⟩ := by
      simp only [answers,AnswerCache.insert,if_neg hp,keyOf]
    rw [hpu]
    by_cases hk : keyOf r=key
    · rw [if_pos (by simpa using hk),← hk]
      exact entryOf_put_self
    · rw [if_neg (by simpa using hk),entryOf_put_of_ne (Ne.symm hk)]
      exact ih hb

theorem mem_remembered (h : ∀ r∈inserts,answers.persists r=true) {name : Text} {kind : Option RecordKind}
    {x : Text × RecordKind × Text × Nat} :
    x∈((inserts.foldl (fun c r => answers.remember r c) AnswerCache.empty).lookup b name kind).1.map content ↔
      ∃ r,last (keyOf · = cacheKey name kind) inserts=some r ∧ Live b r ∧ ∃ record∈r.records,content record=x := by
  rw [lookup_fst,get_fst,entryOf_remembered h]
  cases last (keyOf · = cacheKey name kind) inserts with
  | none => simp
  | some r =>
    by_cases hl : b<r.now+secs r.ttl
    · simp [Option.filter_some,hl,Live,content]
    · simp [Option.filter_some,hl,Live]

def liveKeys (b : Nat) (rows : List CacheRow) (k : RowKey) : Prop :=
  ∃ row∈rows,row.key=k ∧ b / secs 1<row.cachedAt+row.ttl

/-- A write, of a row that runs out when what was inserted does. -/
def settleRow (b : Nat) (w : RowWrite) (live : RowKey → Prop) (k : RowKey) : Prop :=
  (k=(w.name,w.recordType,w.value) ∧ b<w.issued+secs w.ttl) ∨ (k≠(w.name,w.recordType,w.value) ∧ live k)

theorem liveKeys_cacheInsert {now : Nat} {w : RowWrite} {rows : List CacheRow}
    (h : b / secs 1<now / secs 1+w.ttl ↔ b<w.issued+secs w.ttl) :
    liveKeys b (cacheInsert now w rows)=settleRow b w (liveKeys b rows) := by
  funext k
  refine propext ⟨?_,?_⟩
  · rintro ⟨row,hr,rfl,hl⟩
    rcases mem_upsert.mp hr with rfl | ⟨hr,hne⟩
    · exact .inl ⟨rfl,h.mp hl⟩
    · exact .inr ⟨hne,row,hr,rfl,hl⟩
  · rintro (⟨rfl,hl⟩ | ⟨hne,row,hr,rfl,hl⟩)
    · exact ⟨_,mem_upsert.mpr (.inl rfl),rfl,h.mpr hl⟩
    · exact ⟨row,mem_upsert.mpr (.inr ⟨hr,hne⟩),rfl,hl⟩

theorem settled_statements {live : RowKey → Prop} :
    (answers.statements r).foldl (fun live w => settleRow b w live) live k ↔ (k∈rowKeys r ∧ Live b r) ∨
      (k∉rowKeys r ∧ live k) := by
  obtain ⟨now,name,kind,records,ttl⟩ := r
  simp only [answers,rowKeys,Live]
  induction records generalizing live with
  | nil => simp
  | cons record records ih =>
    rw [map_cons,foldl_cons,ih,map_cons,mem_cons]
    unfold settleRow
    tauto

/-- The table: the last insertion of a row says whether the row is live. -/
theorem settled_insertions :
    inserts.foldl (fun live r => (answers.statements r).foldl (fun live w => settleRow b w live) live)
      (fun _ => False) k ↔
      ∃ r,last (k∈rowKeys ·) inserts=some r ∧ Live b r := by
  induction inserts using reverseRecOn with
  | nil => simp [last]
  | append_singleton inserts r ih =>
    rw [foldl_append,foldl_cons,foldl_nil,settled_statements,ih,last_append]
    by_cases hk : k∈rowKeys r <;> simp [hk]

/-- What was inserted for a question is run out, or inserted again, when anything later is inserted for it. -/
def Refreshed (b : Nat) : List Insertion → Prop
  | [] => True
  | r::later =>
    (∀ k∈rowKeys r,¬ Live b r ∨ (∃ r'∈later,k∈rowKeys r') ∨ ∀ r'∈later,keyOf r'≠keyOf r) ∧ Refreshed b later

theorem Refreshed.of_append {before later : List Insertion} (h : Refreshed b (before++later)) : Refreshed b later := by
  induction before with
  | nil => exact h
  | cons r before ih => exact ih h.2

theorem mem_rowKeys {kind : RecordKind} (hk : r.kind=some kind) :
    k∈rowKeys r ↔ ∃ record∈r.records,(r.name,kind.asStr,record.value)=k := by
  simp [rowKeys,hk]

theorem keyOf_eq {r' : Insertion} (hr : Plain r) (hr' : Plain r') (hk : k∈rowKeys r) (hk' : k∈rowKeys r') :
    keyOf r'=keyOf r := by
  obtain ⟨kind,hki,-⟩ := hr
  obtain ⟨kind',hki',-⟩ := hr'
  obtain ⟨record,-,rfl⟩ := (mem_rowKeys hki).mp hk
  obtain ⟨record',-,heq⟩ := (mem_rowKeys hki').mp hk'
  obtain ⟨hn,hasStr,-⟩ : r'.name=r.name ∧ kind'.asStr=kind.asStr ∧ record'.value=record.value := by simpa using heq
  rw [keyOf,keyOf,hki,hki',hn,asStr_injective hasStr]

/-- Under the conditions, a row is live if and only if its value is in the last insertion of its question
and that is live. -/
theorem live_row_iff (hp : ∀ r∈inserts,Plain r) (hre : Refreshed b inserts) (hli : Live b r) :
    last (k∈rowKeys ·) inserts=some r ↔ last (keyOf · = keyOf r) inserts=some r ∧ k∈rowKeys r := by
  rw [last_eq_some,last_eq_some]
  constructor
  · rintro ⟨hk,before,later,rfl,hl⟩
    have hk : k∈rowKeys r := by simpa using hk
    refine ⟨⟨by simp,before,later,rfl,fun r' hr' => ?_⟩,hk⟩
    rcases hre.of_append.1 k hk with hd | ⟨r'',hr'',hk''⟩ | hn
    · exact absurd hli hd
    · exact absurd hk'' (by simpa using hl r'' hr'')
    · simpa using hn r' hr'
  · rintro ⟨⟨-,before,later,rfl,hl⟩,hk⟩
    refine ⟨by simpa using hk,before,later,rfl,fun r' hr' => ?_⟩
    have hr : Plain r := hp r (mem_append_right _ mem_cons_self)
    have hr'' : Plain r' := hp r' (mem_append_right _ (mem_cons_of_mem _ hr'))
    have ho : keyOf r'≠keyOf r := by simpa using hl r' hr'
    simpa using fun hk' => ho (keyOf_eq hr hr'' hk hk')

end

section
variable {b : Nat} {acts : List Act} {s : State AnswerCache Insertion RowWrite (List CacheRow) RowKey Unit} {a : Act}

/-- What happens between two restarts: an answer is inserted and its write is queued, or the worker takes a step. -/
inductive Act where
  | insert (r : Insertion)
  | receive
  | write (now : Nat)

def Act.events : Act → List (Event Insertion Unit)
  | .insert r => inserted r
  | .receive => [.receive]
  | .write now => [.write now]

def inserts : List Act → List Insertion
  | [] => []
  | .insert r::acts => if answers.persists r then r::inserts acts else inserts acts
  | _::acts => inserts acts

/-- Records are inserted for their own question and have no priority; a write that is sent fits the queue; a
row that is written has, at the time of the restart, run out if and only if what was inserted has. -/
def Steady (b : Nat) (s : State AnswerCache Insertion RowWrite (List CacheRow) RowKey Unit) :
    Event Insertion Unit → Prop
  | .insert r => Plain r
  | .send i => ∀ e,s.announced[i]?=some e → s.queue.length<answers.capacity
  | .write now => ∀ p rest,s.running=p::rest → (b / secs 1<now / secs 1+p.2.ttl ↔ b<p.2.issued+secs p.2.ttl)
  | _ => True

theorem persists_inserts : ∀ r∈inserts acts,answers.persists r=true := by
  intro r hr
  induction acts with
  | nil => cases hr
  | cons a acts ih =>
    cases a with
    | insert r' =>
      simp only [inserts] at hr
      split_ifs at hr with hp
      · rcases mem_cons.mp hr with rfl | hr
        · exact hp
        · exact ih hr
      · exact ih hr
    | receive | write now => exact ih hr

theorem plain_inserts
    (h : Meets answers (Steady b) s (acts.flatMap Act.events)) : ∀ r∈inserts acts,Plain r := by
  intro r hr
  induction acts generalizing s with
  | nil => cases hr
  | cons a acts ih =>
    obtain ⟨hac,ha⟩ := meets_append.mp h
    cases a with
    | insert r' =>
      simp only [inserts] at hr
      split at hr
      · rcases mem_cons.mp hr with rfl | hr
        · exact hac.1
        · exact ih ha hr
      · exact ih ha hr
    | receive | write now => exact ih ha hr

theorem remember_of_not_persists {r : Insertion} {c : AnswerCache} (h : answers.persists r=false) :
    answers.remember r c=c := by
  simp only [answers,Bool.not_eq_false'] at h
  exact if_pos h

theorem settled_act (ha : s.announced=[]) (h : Meets answers (Steady b) s a.events) :
    let s' := run answers s a.events
    s'.announced=[] ∧ s'.memory=(inserts [a]).foldl (fun c r => answers.remember r c) s.memory ∧
      settled answers (liveKeys b) (settleRow b) s' =
        (inserts [a]).foldl (fun live r => (answers.statements r).foldl (fun live w => settleRow b w live) live)
          (settled answers (liveKeys b) (settleRow b) s) := by
  cases a with
  | insert r =>
    have hr : answers.persists r=true → s.queue.length<answers.capacity := by
      intro hpe
      refine h.2.1 (s.count,r) ?_
      simp [step,act,hpe,ha]
    obtain ⟨ha',hm,hs⟩ := settled_inserted (liveKeys b) (settleRow b) ha hr
    refine ⟨ha',?_,?_⟩
    · rw [Act.events,hm,inserts,inserts]
      cases hpe : answers.persists r with
      | true => rfl
      | false => exact remember_of_not_persists hpe
    · rw [Act.events,hs,inserts,inserts]
      cases answers.persists r <;> rfl
  | receive =>
    obtain ⟨ha',hm,hs⟩ := settled_receive answers (liveKeys b) (settleRow b) s
    exact ⟨ha'.trans ha,hm,hs⟩
  | write now =>
    have hv : ∀ p rest,s.running=p::rest → ∀ rows,liveKeys b (cacheInsert now p.2 rows) =
      settleRow b p.2 (liveKeys b rows) :=
      fun p rest hp rows => liveKeys_cacheInsert (h.1 p rest hp)
    obtain ⟨ha',hm,hs⟩ := settled_write (D := answers) hv
    exact ⟨ha'.trans ha,hm,hs⟩

theorem inserts_cons : inserts (a::acts)=inserts [a]++inserts acts := by
  cases a with
  | insert r =>
    simp only [inserts]
    split <;> rfl
  | receive | write now => rfl

theorem settled_acts (ha : s.announced=[])
    (h : Meets answers (Steady b) s (acts.flatMap Act.events)) :
    let s' := run answers s (acts.flatMap Act.events)
    s'.memory=(inserts acts).foldl (fun c r => answers.remember r c) s.memory ∧
      settled answers (liveKeys b) (settleRow b) s' =
        (inserts acts).foldl (fun live r => (answers.statements r).foldl (fun live w => settleRow b w live) live)
          (settled answers (liveKeys b) (settleRow b) s) := by
  induction acts generalizing s with
  | nil => exact ⟨rfl,rfl⟩
  | cons a acts ih =>
    obtain ⟨hat,hac⟩ := meets_append.mp h
    obtain ⟨ha',hm,hs⟩ := settled_act ha hat
    obtain ⟨hm',hs'⟩ := ih ha' hac
    rw [inserts_cons,foldl_append,foldl_append,← hm,← hs,flatMap_cons,run,foldl_append]
    exact ⟨hm',hs'⟩

/-- Where insertions are steady and what an insertion replaces is run out or inserted again, a restart
answers every question as the memory did before it. -/
theorem restart_keeps_answers (fmt : FormatLibrary)
    (hupper : ∀ kind : RecordKind,fmt.toUppercase kind.asStr=kind.asStr) (b : Nat)
    (acts : List Act) (hsteady : Meets answers (Steady b) (initial .empty []) (acts.flatMap Act.events))
    (hrefreshed : Refreshed b (inserts acts)) :
    let s := run answers (initial .empty []) (acts.flatMap Act.events)
    Drained s → ∀ name kind x,x∈((loadFromDisk fmt b s.table).lookup b name kind).1.map content ↔
      x∈(s.memory.lookup b name kind).1.map content := by
  intro s hd name kind x
  obtain ⟨hm,hs⟩ := settled_acts rfl hsteady
  have hpl := plain_inserts hsteady
  have hta (k : RowKey) : liveKeys b s.table k ↔ ∃ r,last (k∈rowKeys ·) (inserts acts)=some r ∧ Live b r := by
    rw [← settled_of_drained (liveKeys b) (settleRow b) hd,hs,← settled_insertions]
    have hno : liveKeys b []=fun _ => False := by
      funext k
      simp [liveKeys]
    change foldl _ (liveKeys b []) _ k ↔ _
    rw [hno]
  have hm : s.memory=(inserts acts).foldl (fun c r => answers.remember r c) .empty := hm
  rw [hm,mem_remembered persists_inserts,mem_loadFromDisk]
  constructor
  · rintro ⟨row,hro,hli,hke,rfl⟩
    obtain ⟨r,hl,hli⟩ := (hta row.key).mp ⟨row,hro,rfl,hli⟩
    obtain ⟨hl,hk⟩ := (live_row_iff hpl hrefreshed hli).mp hl
    obtain ⟨-,before,later,heq,-⟩ := last_eq_some.mp hl
    obtain ⟨kind',hki',hre⟩ := hpl r (by rw [heq]; simp)
    obtain ⟨record,hr,hf⟩ := (mem_rowKeys hki').mp hk
    obtain ⟨hn,ht,hv⟩ : r.name=row.name ∧ kind'.asStr=row.recordType ∧ record.value=row.value := by
      simpa [CacheRow.key] using hf
    obtain ⟨hrn,hrt,hp⟩ := hre record hr
    rw [← hn,← ht,parseKind_asStr hupper,Option.getD_some,← hki'] at hke
    refine ⟨r,?_,hli,record,hr,?_⟩
    · rw [← hke]
      exact hl
    · rw [content,hrn,hrt,hp,hn,hv,← ht,parseKind_asStr hupper,Option.getD_some]
  · rintro ⟨r,hl,hli,record,hr,rfl⟩
    obtain ⟨hke,before,later,heq,-⟩ := last_eq_some.mp hl
    have hke : keyOf r=cacheKey name kind := by simpa using hke
    obtain ⟨kind',hki',hre⟩ := hpl r (by rw [heq]; simp)
    obtain ⟨hrn,hrt,hp⟩ := hre record hr
    rw [← hke] at hl
    have hk : (r.name,kind'.asStr,record.value)∈rowKeys r := (mem_rowKeys hki').mpr ⟨record,hr,rfl⟩
    obtain ⟨row,hro,hf,hrm⟩ := (hta _).mpr ⟨r,(live_row_iff hpl hrefreshed hli).mpr ⟨hl,hk⟩,hli⟩
    obtain ⟨hn,ht,hv⟩ : row.name=r.name ∧ row.recordType=kind'.asStr ∧ row.value=record.value := by
      simpa [CacheRow.key] using hf
    refine ⟨row,hro,hrm,?_,?_⟩
    · rw [hn,ht,parseKind_asStr hupper,Option.getD_some,← hki']
      exact hke
    · rw [content,hrn,hrt,hp,hn,ht,hv,parseKind_asStr hupper,Option.getD_some]

end

section

variable (seconds : Nat) (values : List String)

def addresses : Insertion :=
  ⟨secs seconds,"a.",some .A,values.map fun value => ⟨"a.",.A,value.toList,300,0⟩,300⟩

def writtenAtOnce (r : Insertion) : List Act :=
  [.insert r,.receive,.write (secs seconds),.write (secs seconds),.write (secs seconds)]

theorem plain_addresses : Plain (addresses seconds values) := by
  refine ⟨.A,rfl,fun record hr => ?_⟩
  obtain ⟨value,-,rfl⟩ := mem_map.mp hr
  exact ⟨rfl,rfl,rfl⟩

def refreshed : List Act :=
  writtenAtOnce 0 (addresses 0 ["192.0.2.1"])++writtenAtOnce 10 (addresses 10 ["192.0.2.1","192.0.2.2"])

theorem restart_keeps_answers_refreshed :
    let s := run answers (initial .empty []) (refreshed.flatMap Act.events)
    ((loadFromDisk StoredRdata.plainFormats (secs 20) s.table).lookup (secs 20) "A." (some .A)).1.map (·.value) =
        ["192.0.2.1".toList,"192.0.2.2".toList] ∧
      ∀ name kind x,x∈((loadFromDisk StoredRdata.plainFormats (secs 20) s.table).lookup (secs 20) name kind).1.map
        content ↔
        x∈(s.memory.lookup (secs 20) name kind).1.map content := by
  have hu : ∀ kind : RecordKind,StoredRdata.plainFormats.toUppercase kind.asStr=kind.asStr := by
    intro kind
    cases kind <;> decide
  have hs : Meets answers (Steady (secs 20)) (initial .empty []) (refreshed.flatMap Act.events) := by
    refine ⟨plain_addresses _ _,fun _ _ => by decide,trivial,?_,?_,?_,plain_addresses _ _,fun _ _ => by decide,
      trivial,?_,?_,?_,trivial⟩
    all_goals
      intro p rest h
      first
        | cases h
          decide
        | cases h
  have hr : Refreshed (secs 20) (inserts refreshed) := by
    refine ⟨fun k hk => .inr (.inl ⟨_,mem_singleton.mpr rfl,?_⟩),fun k hk => .inr (.inr (forall_mem_nil _)),trivial⟩
    obtain rfl : k=("a.".toList, "A".toList, "192.0.2.1".toList) := mem_singleton.mp hk
    decide
  exact ⟨by decide,restart_keeps_answers _ hu _ refreshed hs hr ⟨by decide,by decide,by decide⟩⟩

/-- After a restart the address that was replaced is answered again, beside the one that replaced it, and a
mail exchanger has lost its preference. -/
theorem restart_restores_replaced :
    (let s := run answers (initial .empty [])
        ((writtenAtOnce 0 (addresses 0 ["192.0.2.1"])++writtenAtOnce 10 (addresses 10 ["192.0.2.2"])).flatMap
          Act.events);
      s.announced.length=0 ∧ s.queue.length=0 ∧ s.running.length=0 ∧
        (s.memory.lookup (secs 20) "a." (some .A)).1.map (·.value)=["192.0.2.2".toList] ∧
        ((loadFromDisk StoredRdata.plainFormats (secs 20) s.table).lookup (secs 20) "a." (some .A)).1.map (·.value) =
          ["192.0.2.1".toList,"192.0.2.2".toList]) ∧
    let s := run answers (initial .empty [])
        ((writtenAtOnce 0 ⟨0,"a.",some .MX,[⟨"a.",.MX,"b.",300,10⟩],300⟩).flatMap Act.events);
      s.announced.length=0 ∧ s.queue.length=0 ∧ s.running.length=0 ∧
        (s.memory.lookup (secs 20) "a." (some .MX)).1.map (·.priority)=[10] ∧
        ((loadFromDisk StoredRdata.plainFormats (secs 20) s.table).lookup (secs 20) "a." (some .MX)).1.map
          (·.priority)=[0] := by
  decide

end

end RolodexDns.CacheRestarts
