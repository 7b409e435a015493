import RolodexDns.ServerOperations

/-! The answer cache. Its keys are text, the name in lower case and the kind that was asked for. An
entry stands under its key until it expires, is written again or everything is flushed. -/
namespace RolodexDns.AnswerCaches
open ExpiringMaps ResolverCaches StoredRecords ServerOperations

structure CachedEntry where
  records : List DnsRecord
  isLocal : Bool

structure AnswerCache where
  memory : ExpiringMap Text CachedEntry
  negatives : ExpiringMap Text NegativeKind

def cacheKey (name : Text) (kind : Option RecordKind) : Text :=
  name.map Char.toLower ++ ':' :: kind.elim ['*'] RecordKind.asStr

def localLifetime : Nat := 86400

namespace AnswerCache

def empty : AnswerCache := ⟨[],[]⟩

variable (c : AnswerCache) (now : Nat) (name : Text) (kind : Option RecordKind) (records : List DnsRecord)

/-- The live records, with what is left of the entry's lifetime as their TTL unless they are the
server's own. -/
def lookup : List DnsRecord × AnswerCache :=
  match c.memory.get now (cacheKey name kind) with
  | (none,memory) => ([],{ c with memory := memory })
  | (some e,memory) =>
    (if e.value.isLocal then e.value.records
      else e.value.records.map fun r => { r with ttl := max ((e.expiresAt - now) / secs 1) 1 },
      { c with memory := memory })

def lookupLocalOnly :
    List DnsRecord × AnswerCache :=
  match c.memory.get now (cacheKey name kind) with
  | (none,memory) => ([],{ c with memory := memory })
  | (some e,memory) => (if e.value.isLocal then e.value.records else [],{ c with memory := memory })

def insert (ttl : Nat) :
    AnswerCache :=
  if records.isEmpty || ttl=0 then c
  else { c with memory := c.memory.put (cacheKey name kind) ⟨⟨records,false⟩,now+secs ttl⟩ }

def insertLocal :
    AnswerCache :=
  if records.isEmpty then c
  else { c with memory := c.memory.put (cacheKey name kind) ⟨⟨records,true⟩,now+secs localLifetime⟩ }

def insertNegative (negative : NegativeKind)
    (ttl : Nat) : AnswerCache :=
  if ttl=0 then c
  else { c with negatives := c.negatives.put (cacheKey name kind) ⟨negative,now+secs ttl⟩ }

def lookupNegative :
    Option NegativeKind × AnswerCache :=
  ((c.negatives.get now (cacheKey name kind)).1.map Timed.value,
    { c with negatives := (c.negatives.get now (cacheKey name kind)).2 })

/-- Drops the negatives of a name. The name is compared as it is written, the keys are in lower case. -/
def invalidateNegative : AnswerCache :=
  { c with negatives := c.negatives.filter fun e => !(name++[':']).isPrefixOf e.1 }

def flush (_ : AnswerCache) : AnswerCache := empty

def perform (held : (o : LocalOp) → LocalRes o) (now : Nat) (c : AnswerCache) : (o : LocalOp) → LocalRes o × AnswerCache
  | .cacheLookup name kind => c.lookup now name kind
  | .cacheLookupLocalOnly name kind => c.lookupLocalOnly now name kind
  | .cacheLookupNegative name kind => c.lookupNegative now name kind
  | .cacheInsert name kind records ttl => ((),c.insert now name kind records ttl)
  | .cacheInsertLocal name kind records => ((),c.insertLocal now name kind records)
  | .cacheInsertNegative name kind negative ttl => ((),c.insertNegative now name kind negative ttl)
  | .cacheInvalidateNegative name => ((),c.invalidateNegative name)
  | o => (held o,c)

end AnswerCache

/-- What happens to the cache: an operation of some query, at some time, or a flush. -/
inductive CacheEvent where
  | performed (held : (o : LocalOp) → LocalRes o) (now : Nat) (o : LocalOp)
  | flushed

namespace CacheEvent

def next (c : AnswerCache) : CacheEvent → AnswerCache
  | performed held now o => (c.perform held now o).2
  | flushed => c.flush

def By (deadline : Nat) : CacheEvent → Prop
  | performed _ now _ => now ≤ deadline
  | flushed => True

/-- The event may replace or drop the answers under the key before they expire. -/
def Writes (key : Text) : CacheEvent → Prop
  | performed _ _ (.cacheInsert name kind _ _) => cacheKey name kind=key
  | performed _ _ (.cacheInsertLocal name kind _) => cacheKey name kind=key
  | performed _ _ _ => False
  | flushed => True

end CacheEvent

section
variable {c : AnswerCache} {key name : Text} {e : Timed CachedEntry} {deadline now : Nat} {kind : Option RecordKind}
  {records : List DnsRecord}

theorem entryOf_insert_self {ttl : Nat} (hr : records≠[]) (ht : ttl≠0) :
    (c.insert now name kind records ttl).memory.entryOf (cacheKey name kind) =
      some ⟨⟨records,false⟩,now+secs ttl⟩ := by
  rw [AnswerCache.insert,if_neg (by simp [hr,ht])]
  exact ExpiringMap.entryOf_put_self

theorem memory_lookup :
    (c.lookup now name kind).2.memory=(c.memory.get now (cacheKey name kind)).2 := by
  unfold AnswerCache.lookup
  split <;> rename_i heq <;> rw [heq]

theorem memory_lookupLocalOnly :
    (c.lookupLocalOnly now name kind).2.memory=(c.memory.get now (cacheKey name kind)).2 := by
  unfold AnswerCache.lookupLocalOnly
  split <;> rename_i heq <;> rw [heq]

theorem lookup_fst :
    (c.lookup now name kind).1=((c.memory.get now (cacheKey name kind)).1.map fun e =>
      if e.value.isLocal then e.value.records
      else e.value.records.map fun r => { r with ttl := max ((e.expiresAt - now) / secs 1) 1 }).getD [] := by
  unfold AnswerCache.lookup
  cases c.memory.get now (cacheKey name kind) with
  | mk found memory => cases found <;> rfl

theorem lookupLocalOnly_fst :
    (c.lookupLocalOnly now name kind).1=((c.memory.get now (cacheKey name kind)).1.map fun e =>
      if e.value.isLocal then e.value.records else []).getD [] := by
  unfold AnswerCache.lookupLocalOnly
  cases c.memory.get now (cacheKey name kind) with
  | mk found memory => cases found <;> rfl

theorem negatives_lookup : (c.lookup now name kind).2.negatives=c.negatives := by
  unfold AnswerCache.lookup
  split <;> rfl

theorem negatives_lookupLocalOnly :
    (c.lookupLocalOnly now name kind).2.negatives=c.negatives := by
  unfold AnswerCache.lookupLocalOnly
  split <;> rfl

variable (h : c.memory.entryOf key=some e)
include h

theorem entryOf_looked {key' : Text} (hl : now<e.expiresAt) :
    (c.memory.get now key').2.entryOf key=some e := by
  rw [ExpiringMap.entryOf_get,h]
  rintro rfl e' he'
  obtain rfl : e=e' := Option.some.inj (h.symm.trans he')
  exact hl

/-- One event: an entry stays unless it is written or has expired. -/
theorem entryOf_next (hl : deadline<e.expiresAt) {event : CacheEvent}
    (hby : event.By deadline) (hw : ¬ event.Writes key) : (event.next c).memory.entryOf key=some e := by
  cases event with
  | flushed => exact absurd trivial hw
  | performed held now o =>
    have hn : now<e.expiresAt := Nat.lt_of_le_of_lt hby hl
    cases o with
    | cacheLookup name kind =>
      change (c.lookup now name kind).2.memory.entryOf key=_
      rw [memory_lookup]
      exact entryOf_looked h hn
    | cacheLookupLocalOnly name kind =>
      change (c.lookupLocalOnly now name kind).2.memory.entryOf key=_
      rw [memory_lookupLocalOnly]
      exact entryOf_looked h hn
    | cacheInsert name kind records ttl =>
      change (c.insert now name kind records ttl).memory.entryOf key=_
      unfold AnswerCache.insert
      split
      · exact h
      · exact (ExpiringMap.entryOf_put_of_ne (Ne.symm hw)).trans h
    | cacheInsertLocal name kind records =>
      change (c.insertLocal now name kind records).memory.entryOf key=_
      unfold AnswerCache.insertLocal
      split
      · exact h
      · exact (ExpiringMap.entryOf_put_of_ne (Ne.symm hw)).trans h
    | cacheInsertNegative name kind negative ttl =>
      change (c.insertNegative now name kind negative ttl).memory.entryOf key=_
      unfold AnswerCache.insertNegative
      split <;> exact h
    | _ => exact h

theorem entryOf_foldl {events : List CacheEvent} (hl : deadline<e.expiresAt)
    (he : ∀ event∈events,event.By deadline ∧ ¬ event.Writes key) :
    (events.foldl CacheEvent.next c).memory.entryOf key=some e := by
  induction events generalizing c with
  | nil => exact h
  | cons event events ih =>
    obtain ⟨hf,hr⟩ := List.forall_mem_cons.mp he
    exact ih (entryOf_next h hl hf.1 hf.2) hr

omit h in
theorem lookup_upstream {expiresAt : Nat}
    (h : c.memory.entryOf (cacheKey name kind)=some ⟨⟨records,false⟩,expiresAt⟩) (hl : now<expiresAt) :
    (c.lookup now name kind).1=records.map fun r => { r with ttl := max ((expiresAt - now) / secs 1) 1 } := by
  have hg : (c.memory.get now (cacheKey name kind)).1=some ⟨⟨records,false⟩,expiresAt⟩ := by
    rw [ExpiringMap.get_fst,h,Option.filter_some_pos (by simpa using hl)]
  rw [lookup_fst,hg]
  rfl

end

end RolodexDns.AnswerCaches
