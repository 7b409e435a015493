import RolodexDns.AnswerCaches
import RolodexDns.StoredRdata
import RolodexDns.WriteBehind

/-! The two caches that outlive the process. Answers and delegations are remembered in memory and written to
their tables behind it; at boot the rows that have not run out are loaded again. -/
namespace RolodexDns.PersistentCaches
open DomainNames DnsRecords ExpiringMaps ResolverCaches StoredRecords StoredRdata AnswerCaches WriteBehind List

section
variable {ρ κ : Type} [DecidableEq κ] (key : ρ → κ)

/-- INSERT with ON CONFLICT DO UPDATE: what has the same key is replaced. -/
def upsert (row : ρ) (rows : List ρ) : List ρ :=
  if rows.any fun r => key r=key row then rows.map fun r => if key r=key row then row else r else rows++[row]

variable {key} {row : ρ} {rows : List ρ}

theorem mem_upsert {r : ρ} : r∈upsert key row rows ↔ r=row ∨ (r∈rows ∧ key r≠key row) := by
  unfold upsert
  split
  · rename_i ha
    obtain ⟨old,ho,hk⟩ := any_eq_true.mp ha
    rw [mem_map]
    constructor
    · rintro ⟨r',hr',rfl⟩
      split_ifs with hne
      · exact .inl rfl
      · exact .inr ⟨hr',hne⟩
    · rintro (rfl | ⟨hr,hne⟩)
      · exact ⟨old,ho,if_pos (by simpa using hk)⟩
      · exact ⟨r,hr,if_neg hne⟩
  · rename_i hn
    rw [mem_append,mem_singleton]
    constructor
    · rintro (hr | rfl)
      · refine .inr ⟨hr,fun heq => hn ?_⟩
        exact any_eq_true.mpr ⟨r,hr,by simpa using heq⟩
      · exact .inl rfl
    · rintro (rfl | ⟨hr,-⟩)
      · exact .inr rfl
      · exact .inl hr

end

section

structure CacheRow where
  name : Text
  recordType : Text
  value : Text
  ttl : Nat
  cachedAt : Nat
deriving DecidableEq

abbrev RowKey := Text × Text × Text

def CacheRow.key (row : CacheRow) : RowKey := (row.name,row.recordType,row.value)

structure Insertion where
  now : Nat
  name : Text
  kind : Option RecordKind
  records : List DnsRecord
  ttl : Nat

structure RowWrite where
  issued : Nat
  name : Text
  recordType : Text
  value : Text
  ttl : Nat

def cacheInsert (now : Nat) (w : RowWrite) (rows : List CacheRow) : List CacheRow :=
  upsert CacheRow.key ⟨w.name,w.recordType,w.value,w.ttl,now / secs 1⟩ rows

/-- The answer cache: 1024 requests fit its channel, and the worker writes up to 64 of them in a round. -/
def answers : Design AnswerCache Insertion RowWrite (List CacheRow) RowKey Unit where
  remember r c := c.insert r.now r.name r.kind r.records r.ttl
  persists r := !(r.records.isEmpty || r.ttl=0)
  statements r := r.records.map fun record => ⟨r.now,r.name,(r.kind.getD record.recordType).asStr,record.value,r.ttl⟩
  exec := cacheInsert
  makes w := [(w.name,w.recordType,w.value)]
  forget _ c := c.flush
  erase _ _ := []
  hits _ _ := true
  present rows k := ∃ row∈rows,row.key=k
  capacity := 1024
  batch := 64

theorem answers_lawful : answers.Lawful where
  exec := by
    rintro now w rows k ⟨row,hr,rfl⟩
    rcases mem_upsert.mp hr with rfl | ⟨hr,-⟩
    · exact .inl (mem_singleton.mpr rfl)
    · exact .inr ⟨row,hr,rfl⟩
  erase := by
    rintro c rows k ⟨row,hr,-⟩
    cases hr

variable (fmt : FormatLibrary)

/-- The rows that have not run out, each with what is left of its lifetime. -/
def cacheLoadAll (now : Nat) (rows : List CacheRow) : List (DnsRecord × Nat) :=
  rows.filterMap fun row =>
    let remaining := row.cachedAt+row.ttl - now / secs 1
    if remaining=0 then none
    else some (⟨row.name,(parseKind fmt row.recordType).getD .A,row.value,remaining,0⟩,remaining)

/-- A record joins the entry of its key, which lives as long as its shortest-lived record. -/
def loadRecord (now : Nat) (m : ExpiringMap Text CachedEntry) (loaded : DnsRecord × Nat) :
    ExpiringMap Text CachedEntry :=
  let key := cacheKey loaded.1.name (some loaded.1.recordType)
  let expiresAt := now+secs loaded.2
  match m.entryOf key with
  | none => m.put key ⟨⟨[loaded.1],false⟩,expiresAt⟩
  | some e => m.put key ⟨{ e.value with records := e.value.records++[loaded.1] },min e.expiresAt expiresAt⟩

def loadFromDisk (now : Nat) (rows : List CacheRow) : AnswerCache :=
  ⟨(cacheLoadAll fmt now rows).foldl (loadRecord now) [],[]⟩

end

section

structure DelegationRow where
  zone : Name
  nsIp : IpAddr
  ttl : Nat
  cachedAt : Nat
deriving DecidableEq

def DelegationRow.key (row : DelegationRow) : Name × IpAddr := (row.zone,row.nsIp)

structure DelegationInsertion where
  now : Nat
  zone : Name
  servers : List IpAddr
  ttl : Nat

structure ZoneWrite where
  zone : Name
  servers : List IpAddr
  ttl : Nat

/-- The addresses of a zone are replaced in one transaction. -/
def delegationReplace (now : Nat) (w : ZoneWrite) (rows : List DelegationRow) : List DelegationRow :=
  w.servers.foldl (fun rows ip => upsert DelegationRow.key ⟨w.zone,ip,w.ttl,now / secs 1⟩ rows)
    (rows.filter (·.zone≠w.zone))

inductive DelegationClear where
  | flush
  | invalidate (zone : Name)

variable (defaultTtl persistMinTtl : Nat)

/-- The delegation cache: the worker writes one request after another. An invalidated zone is replaced by no
addresses. -/
def delegations :
    Design DelegationCache DelegationInsertion ZoneWrite (List DelegationRow) (Name × IpAddr) DelegationClear where
  remember r c := c.insert defaultTtl r.now r.zone r.servers r.ttl
  persists r := !r.servers.isEmpty && persistMinTtl<DelegationCache.lifetime defaultTtl r.ttl
  statements r := [⟨r.zone,r.servers,DelegationCache.lifetime defaultTtl r.ttl⟩]
  exec := delegationReplace
  makes w := w.servers.map fun ip => (w.zone,ip)
  forget
    | .flush, _ => []
    | .invalidate zone, c => ExpiringMap.erase c zone
  erase
    | .flush, _ => []
    | .invalidate zone, rows => delegationReplace 0 ⟨zone,[],0⟩ rows
  hits
    | .flush, _ => true
    | .invalidate zone, k => k.1=zone
  present rows k := ∃ row∈rows,row.key=k
  capacity := 1024
  batch := 1

def Holds (rows : List DelegationRow) (k : Name × IpAddr) : Prop := ∃ row∈rows,row.key=k

variable {rows : List DelegationRow} {k : Name × IpAddr}

theorem holds_upsert {row : DelegationRow} :
    Holds (upsert DelegationRow.key row rows) k ↔ k=row.key ∨ Holds rows k := by
  simp only [Holds,mem_upsert,or_and_right,exists_or,exists_eq_left]
  refine ⟨Or.imp Eq.symm fun ⟨r,hr,hk⟩ => ⟨r,hr.1,hk⟩,fun h => ?_⟩
  by_cases hk : row.key=k
  · exact .inl hk
  · obtain ⟨r,hr,rfl⟩ := h.resolve_left (Ne.symm hk)
    exact .inr ⟨r,⟨hr,Ne.symm hk⟩,rfl⟩

theorem holds_delegationReplace {now : Nat} {w : ZoneWrite} :
    Holds (delegationReplace now w rows) k ↔ (k.1=w.zone ∧ k.2∈w.servers) ∨ (k.1≠w.zone ∧ Holds rows k) := by
  have hf (servers : List IpAddr) (rows : List DelegationRow) :
      Holds (servers.foldl (fun rows ip => upsert DelegationRow.key ⟨w.zone,ip,w.ttl,now / secs 1⟩ rows) rows) k ↔
        (k.1=w.zone ∧ k.2∈servers) ∨ Holds rows k := by
    induction servers generalizing rows with
    | nil => simp
    | cons ip servers ih =>
      rw [foldl_cons,ih,holds_upsert,mem_cons,and_or_left,or_assoc,or_left_comm,DelegationRow.key,Prod.ext_iff]
  rw [delegationReplace,hf]
  refine or_congr_right ⟨?_,?_⟩
  · rintro ⟨row,hr,rfl⟩
    obtain ⟨hr,hz⟩ := mem_filter.mp hr
    exact ⟨of_decide_eq_true hz,row,hr,rfl⟩
  · rintro ⟨hz,row,hr,rfl⟩
    exact ⟨row,mem_filter.mpr ⟨hr,decide_eq_true hz⟩,rfl⟩

theorem delegations_lawful : (delegations defaultTtl persistMinTtl).Lawful where
  exec := by
    intro now w rows k hk
    rcases holds_delegationReplace.mp hk with ⟨hz,hip⟩ | ⟨-,hr⟩
    · exact .inl (mem_map.mpr ⟨k.2,hip,by rw [← hz]⟩)
    · exact .inr hr
  erase := by
    intro c rows k hk
    cases c with
    | flush =>
      obtain ⟨row,hr,-⟩ := hk
      cases hr
    | invalidate zone =>
      rcases holds_delegationReplace.mp hk with ⟨-,hip⟩ | ⟨hz,hr⟩
      · cases hip
      · exact ⟨hr,decide_eq_false hz⟩

/-- The rows that have not run out, with what is left of their lifetime. -/
def delegationLoadAll (now : Nat) (rows : List DelegationRow) : List (Name × IpAddr × Nat) :=
  rows.filterMap fun row =>
    let remaining := row.cachedAt+row.ttl - now / secs 1
    if remaining=0 then none else some (row.zone,row.nsIp,remaining)

end

/-- In every run in which rows are erased only when nothing that they are cleared of is still to be written,
each row that is left of what was flushed or invalidated was inserted after that began. -/
theorem flush_durable (defaultTtl persistMinTtl : Nat) :
    (∀ (memory : AnswerCache) (table : List CacheRow) (events : List (Event Insertion Unit)),
      Meets answers (Settles answers) (initial memory table) events →
        let s := run answers (initial memory table) events
        ∀ c∈s.cleared,∀ row∈s.table,c.1 ≤ s.origin row.key) ∧
    ∀ (memory : DelegationCache) (table : List DelegationRow)
      (events : List (Event DelegationInsertion DelegationClear)),
      let D := delegations defaultTtl persistMinTtl
      Meets D (Settles D) (initial memory table) events →
        let s := run D (initial memory table) events
        ∀ c∈s.cleared,∀ row∈s.table,D.hits c.2 row.key=true → c.1 ≤ s.origin row.key := by
  refine ⟨fun memory table events he => ?_,fun memory table events he => ?_⟩
  · have hf := fresh_run answers_lawful fresh_initial he
    intro s c hc row hr
    exact hf.rows c hc row.key rfl ⟨row,hr,rfl⟩
  · have hf := fresh_run (delegations_lawful defaultTtl persistMinTtl) fresh_initial he
    intro s c hc row hr hh
    exact hf.rows c hc row.key hh ⟨row,hr,rfl⟩

def addressInsertion (value : String) : Insertion :=
  ⟨0,"a.",some .A,[⟨"a.",.A,value.toList,300,0⟩],300⟩

/-- An answer is written, the cache is flushed, and another one is written. -/
def flushedBetween : List (Event Insertion Unit) :=
  [.insert (addressInsertion "192.0.2.1"),.send 0,.receive,.write 0,.clear (),.erase 0,
    .insert (addressInsertion "192.0.2.2"),.send 0,.write 0,.receive,.write 0]

theorem flush_durable_between :
    let s := run answers (initial .empty []) flushedBetween
    s.table.map CacheRow.value=["192.0.2.2".toList] ∧ s.cleared.map Prod.fst=[4] ∧
      ∀ row∈s.table,4 ≤ s.origin row.key := by
  have hm : Meets answers (Settles answers) (initial .empty []) flushedBetween :=
    ⟨trivial,trivial,trivial,trivial,trivial,fun _ _ p hp => (nomatch (hp : p∈[])),trivial,trivial,trivial,
      trivial,trivial,trivial⟩
  exact ⟨by decide,by decide,(flush_durable 3600 86400).1 .empty [] flushedBetween hm (4,()) (by decide)⟩

def zoneInsertion : DelegationInsertion := ⟨0,.root,[.v4 1],604800⟩

/-- What is on the queue when a cache is flushed, or a zone invalidated, is written afterwards and stays. -/
theorem flushed_written_later :
    (let s := run answers (initial .empty []) [.insert (addressInsertion "192.0.2.1"),.send 0,.clear (),
      .erase 0,.receive,.write 0];
      s.memory.memory.length=0 ∧ s.announced.length=0 ∧ s.queue.length=0 ∧ s.running.length=0 ∧
        s.cleared.map Prod.fst=[2] ∧
        s.table.map (fun row => (row.value,s.origin row.key))=[("192.0.2.1".toList,0)]) ∧
    let s := run (delegations 3600 86400) (initial [] []) [.insert zoneInsertion,.send 0,.clear (.invalidate .root),
      .erase 0,.receive,.write 0];
      s.memory.length=0 ∧ s.announced.length=0 ∧ s.queue.length=0 ∧ s.running.length=0 ∧ s.cleared.map Prod.fst=[2] ∧
        s.table.map (fun row => (row.zone,row.nsIp,s.origin row.key))=[(.root,.v4 1,0)] := by
  decide

end RolodexDns.PersistentCaches
