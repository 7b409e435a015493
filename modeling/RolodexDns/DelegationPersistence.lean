import RolodexDns.PersistentCaches

/-! Delegations that outlive the process. The latest insertion decides what is in memory, but only an
insertion of a long lifetime is written: a shorter one leaves the rows of the zone as they are, and a
restart brings those back. -/
namespace RolodexDns.DelegationPersistence
open DomainNames DnsRecords ExpiringMaps ExpiringMap ResolverCaches WriteBehind PersistentCaches List

inductive Call where
  | insert (r : DelegationInsertion)
  | invalidate (zone : Name)
  | flush
  | receive
  | write (now : Nat)

def Call.events : Call → List (Event DelegationInsertion DelegationClear)
  | .insert r => inserted r
  | .invalidate zone => [.clear (.invalidate zone),.erase 0]
  | .flush => [.clear .flush,.erase 0]
  | .receive => [.receive]
  | .write now => [.write now]

/-- The insertion that was the latest for each zone, if it has not been cleared. -/
abbrev Latest := Name → Option DelegationInsertion

def Latest.after (latest : Latest) : Call → Latest
  | .insert r => if r.servers.isEmpty then latest else Function.update latest r.zone (some r)
  | .invalidate zone => Function.update latest zone none
  | .flush => fun _ => none
  | .receive | .write _ => latest

/-- The lifetime of what has none, and the one that a row has to exceed. -/
structure Limits where
  defaultTtl : Nat
  persistMinTtl : Nat

abbrev DelegationState := State DelegationCache DelegationInsertion ZoneWrite (List DelegationRow)
    (Name × IpAddr) DelegationClear

section
variable (L : Limits) (s : DelegationState) (latest : Latest)

abbrev Limits.design := delegations L.defaultTtl L.persistMinTtl

abbrev Limits.lifetime (r : DelegationInsertion) : Nat := DelegationCache.lifetime L.defaultTtl r.ttl

def play (calls : List Call) : DelegationState := run L.design s (calls.flatMap Call.events)

/-- The latest insertion's addresses, where its lifetime reaches the threshold. -/
def Wanted (k : Name × IpAddr) : Prop := ∃ r,latest k.1=some r ∧ L.persistMinTtl ≤ L.lifetime r ∧ k.2∈r.servers

def InMemory (c : DelegationCache) : Prop :=
  ∀ zone,c.entryOf zone=(latest zone).map fun r => ⟨r.servers,r.now+secs (L.lifetime r)⟩

def settle (w : ZoneWrite) (held : Name × IpAddr → Prop) (k : Name × IpAddr) : Prop :=
  (k.1=w.zone ∧ k.2∈w.servers) ∨ (k.1≠w.zone ∧ held k)

/-- What the table will hold when all is written. -/
def Promised : Name × IpAddr → Prop := settled L.design Holds settle s

/-- An insertion finds room in memory and, if it is to be written, on the queue; one that is not to be
written does not reach the threshold, and finds no address of its zone in the table or on the way there. A
clear finds nothing on the way that it clears. -/
def Mirrored : Call → Prop
  | .insert r => r.servers.isEmpty=false → s.memory.length < maxDelegationEntries ∧
      if L.persistMinTtl<L.lifetime r then s.queue.length<1024
      else L.lifetime r≠L.persistMinTtl ∧ ∀ ip,¬ Promised L s (r.zone,ip)
  | .invalidate zone => ∀ p∈pending L.design s,p.2.zone≠zone
  | .flush => pending L.design s=[]
  | .receive | .write _ => True

structure Mirrors (latest : Latest) (s : DelegationState) : Prop where
  announced : s.announced=[]
  clearing : s.clearing=[]
  memory : InMemory L latest s.memory
  promised : Promised L s=Wanted L latest

end

section
variable {L : Limits} {latest : Latest} {s : DelegationState} {r : DelegationInsertion} {zone : Name}

theorem InMemory.insert {c : DelegationCache} (h : InMemory L latest c) (hs : r.servers.isEmpty=false)
    (hr : c.length < maxDelegationEntries) :
    InMemory L (Function.update latest r.zone (some r))
      (DelegationCache.insert c L.defaultTtl r.now r.zone r.servers r.ttl) := by
  intro zone
  rw [DelegationCache.insert,hs,if_neg Bool.false_ne_true,ExpiringMap.insert,reapIfFull,if_pos hr]
  by_cases hz : zone=r.zone
  · rw [hz,entryOf_put_self,Function.update_self,Option.map_some]
  · rw [entryOf_put_of_ne hz,Function.update_of_ne hz,h zone]

theorem wanted_update (latest : Latest) (r : DelegationInsertion) : Wanted L (Function.update latest r.zone (some r)) =
    if L.persistMinTtl ≤ L.lifetime r then settle ⟨r.zone,r.servers,L.lifetime r⟩ (Wanted L latest)
    else fun k => k.1≠r.zone ∧ Wanted L latest k := by
  funext k
  by_cases hz : k.1=r.zone <;> split_ifs <;> simp_all [Wanted,settle,Function.update_of_ne]

variable (h : Mirrors L latest s)
include h

theorem Mirrors.insert (hca : Mirrored L s (.insert r)) :
    Mirrors L (latest.after (.insert r)) (play L s [.insert r]) := by
  have hc : (play L s [.insert r]).clearing=[] := by
    refine Eq.trans ?_ h.clearing
    exact (clearing_step (e := .send 0) rfl).trans (clearing_step (e := .insert r) rfl)
  cases hs : r.servers.isEmpty with
  | true =>
    have hp : L.design.persists r=false := by simp [delegations,hs]
    obtain ⟨ha,hm,hse⟩ := settled_inserted (D := L.design) Holds settle h.announced (r := r) (by simp [hp])
    rw [hp,if_neg Bool.false_ne_true] at hse
    have hla : latest.after (.insert r)=latest := if_pos hs
    have hke : L.design.remember r s.memory=s.memory := if_pos hs
    rw [hla]
    exact ⟨ha,hc,(hm.trans hke) ▸ h.memory,hse.trans h.promised⟩
  | false =>
    obtain ⟨hr,hq⟩ := hca hs
    have hp : L.design.persists r=decide (L.persistMinTtl<L.lifetime r) := by simp [delegations,hs]
    obtain ⟨ha,hm,hse⟩ := settled_inserted (D := L.design) Holds settle h.announced (r := r) fun hl => by
      rw [hp,decide_eq_true_eq] at hl
      rwa [if_pos hl] at hq
    have hla : latest.after (.insert r)=Function.update latest r.zone (some r) := if_neg (by simp [hs])
    have hpr : settled L.design Holds settle s=Wanted L latest := h.promised
    rw [hla]
    refine ⟨ha,hc,hm ▸ h.memory.insert hs hr,hse.trans ?_⟩
    rw [hp,wanted_update,hpr]
    by_cases hl : L.persistMinTtl<L.lifetime r
    · rw [if_pos (decide_eq_true hl),if_pos hl.le]
      rfl
    · rw [if_neg hl,Promised,hpr] at hq
      rw [if_neg (by simpa using hl),if_neg (by omega)]
      funext k
      refine propext (iff_and_self.mpr fun hk hz => hq.2 k.2 ?_)
      rwa [← hz]

omit h in
/-- A write for another zone and a clear can change places. -/
theorem foldl_settle {writes : List (Nat × ZoneWrite)} (h : ∀ p∈writes,p.2.zone≠zone) (held : Name × IpAddr → Prop) :
    writes.foldl (fun v p => settle p.2 v) (fun k => k.1≠zone ∧ held k)=fun k => k.1≠zone ∧
      writes.foldl (fun v p => settle p.2 v) held k := by
  induction writes generalizing held with
  | nil => rfl
  | cons p writes ih =>
    obtain ⟨hp,hr⟩ := forall_mem_cons.mp h
    rw [foldl_cons,foldl_cons,← ih hr]
    congr 1
    funext k
    refine propext ⟨?_,?_⟩
    · rintro (⟨hz,hip⟩ | ⟨hz,hk⟩)
      · exact ⟨hz ▸ hp,.inl ⟨hz,hip⟩⟩
      · exact ⟨hk.1,.inr ⟨hz,hk.2⟩⟩
    · rintro ⟨hne,hk | ⟨hz,hk⟩⟩
      · exact .inl hk
      · exact .inr ⟨hz,hne,hk⟩

theorem Mirrors.invalidate (hc : Mirrored L s (.invalidate zone)) :
    Mirrors L (latest.after (.invalidate zone)) (play L s [.invalidate zone]) := by
  have hp : play L s [.invalidate zone]={ s with
      count := s.count+2, memory := ExpiringMap.erase s.memory zone, table := delegationReplace 0 ⟨zone,[],0⟩ s.table
      cleared := s.cleared++[(s.count,.invalidate zone)] } := by
    simp [play,run,Call.events,step,act,h.clearing,delegations]
  have hh : Holds (delegationReplace 0 ⟨zone,[],0⟩ s.table)=fun k => k.1≠zone ∧ Holds s.table k := by
    funext k
    rw [holds_delegationReplace]
    simp
  have hw : Wanted L (Function.update latest zone none)=fun k => k.1≠zone ∧ Wanted L latest k := by
    funext k
    by_cases hzo : k.1=zone <;> simp [Wanted,hzo,Function.update_of_ne]
  rw [hp]
  refine ⟨h.announced,h.clearing,fun z => ?_,?_⟩
  · by_cases hz : z=zone
    · rw [hz,entryOf_erase_self,Latest.after,Function.update_self,Option.map_none]
    · rw [entryOf_erase_of_ne hz,Latest.after,Function.update_of_ne hz,h.memory z]
  · change (pending L.design s).foldl (fun v p => settle p.2 v) (Holds (delegationReplace 0 ⟨zone,[],0⟩ s.table))=_
    rw [hh,foldl_settle hc,Latest.after,hw,← h.promised]
    rfl

theorem Mirrors.flush (hc : pending L.design s=[]) :
    Mirrors L (latest.after .flush) (play L s [.flush]) := by
  have hp : play L s [.flush] =
      { s with count := s.count+2, memory := [], table := [], cleared := s.cleared++[(s.count,.flush)] } := by
    simp [play,run,Call.events,step,act,h.clearing,delegations]
  rw [hp]
  refine ⟨h.announced,h.clearing,fun _ => rfl,?_⟩
  change (pending L.design s).foldl (fun v p => settle p.2 v) (Holds [])=_
  rw [hc]
  funext k
  simp [Holds,Wanted,Latest.after]

theorem Mirrors.call {call : Call} (hca : Mirrored L s call) :
    Mirrors L (latest.after call) (play L s [call]) := by
  cases call with
  | insert r => exact h.insert hca
  | invalidate zone => exact h.invalidate hca
  | flush => exact h.flush hca
  | receive =>
    obtain ⟨ha,hm,hs⟩ := settled_receive L.design Holds settle s
    have hc : (step L.design s .receive).clearing=[] := (clearing_step rfl).trans h.clearing
    exact ⟨ha.trans h.announced,hc,hm ▸ h.memory,hs.trans h.promised⟩
  | write now =>
    have he (p : Nat × ZoneWrite) (rest) (_ : s.running=p::rest) (rows) : Holds (L.design.exec now p.2 rows) =
      settle p.2 (Holds rows) :=
      funext fun _ => propext holds_delegationReplace
    obtain ⟨ha,hm,hs⟩ := settled_write he
    have hc : (step L.design s (.write now)).clearing=[] := (clearing_step rfl).trans h.clearing
    exact ⟨ha.trans h.announced,hc,hm ▸ h.memory,hs.trans h.promised⟩

end

section
variable (L : Limits)

def AllMirrored : DelegationState → List Call → Prop
  | _, [] => True
  | s, call::calls => Mirrored L s call ∧ AllMirrored (play L s [call]) calls

variable {L}

theorem Mirrors.calls {latest : Latest} {s : DelegationState} (h : Mirrors L latest s) {calls : List Call}
    (hc : AllMirrored L s calls) :
    Mirrors L (calls.foldl Latest.after latest) (play L s calls) := by
  induction calls generalizing latest s with
  | nil => exact h
  | cons call calls ih =>
    have hp : play L s (call::calls)=play L (play L s [call]) calls := by simp [play,run,foldl_append]
    rw [hp]
    exact ih (h.call hc.1) hc.2

/-- In every run whose calls meet the condition, memory has the latest insertions, and once all is written
the table holds exactly those of them that reach the threshold; a restart loads none of the others. -/
theorem delegations_mirrored (calls : List Call) (hcalls : AllMirrored L (initial [] []) calls) :
    let s := play L (initial [] []) calls
    let latest := calls.foldl Latest.after fun _ => none
    InMemory L latest s.memory ∧ (Drained s → (∀ k,Holds s.table k ↔ Wanted L latest k) ∧
      ∀ now zone ip ttl,(zone,ip,ttl)∈delegationLoadAll now s.table → Wanted L latest (zone,ip)) := by
  have hi : Mirrors L (fun _ => none) (initial [] []) := by
    refine ⟨rfl,rfl,fun _ => rfl,?_⟩
    change Holds []=_
    funext k
    simp [Holds,Wanted]
  have hru := hi.calls hcalls
  refine ⟨hru.memory,fun hd => ?_⟩
  have hh (k : Name × IpAddr) : Holds (play L (initial [] []) calls).table k ↔
    Wanted L (calls.foldl Latest.after fun _ => none) k := by
    rw [← hru.promised,Promised,settled_of_drained _ _ hd]
  refine ⟨hh,fun now zone ip ttl hl => (hh _).mp ?_⟩
  obtain ⟨row,hro,hr⟩ := mem_filterMap.mp hl
  dsimp only at hr
  split_ifs at hr
  cases hr
  exact ⟨row,hro,rfl⟩

/-- An insertion that is written at once, after which the worker waits again. -/
def inserted (r : DelegationInsertion) : List Call := [.insert r,.receive,.write 0,.write 0]

def labZone : Name := (Name.fromLabels [[97]]).getD .root

/-- A delegation is replaced, and another one invalidated. -/
def labCalls : List Call :=
  inserted zoneInsertion++inserted ⟨0,.root,[.v4 2],604800⟩++inserted ⟨0,labZone,[.v4 3],604800⟩ ++
    [.invalidate labZone]

theorem delegations_mirrored_written :
    let s := play ⟨3600,300⟩ (initial [] []) labCalls
    s.table=[⟨.root,.v4 2,604800,0⟩] ∧ ∀ k,Holds s.table k ↔
      Wanted ⟨3600,300⟩ (labCalls.foldl Latest.after fun _ => none) k := by
  have hc : AllMirrored ⟨3600,300⟩ (initial [] []) labCalls := by
    have hr {s : DelegationState} {r : DelegationInsertion} (hm : s.memory.length < maxDelegationEntries)
        (hl : (⟨3600,300⟩ : Limits).persistMinTtl<(⟨3600,300⟩ : Limits).lifetime r) (hq : s.queue.length<1024) :
        Mirrored ⟨3600,300⟩ s (.insert r) := by
      refine fun _ => ⟨hm,?_⟩
      rw [if_pos hl]
      exact hq
    have hn {s : DelegationState} {zone : Name} (h : (pending (Limits.design ⟨3600,300⟩) s).length=0) :
        Mirrored ⟨3600,300⟩ s (.invalidate zone) := by
      unfold Mirrored
      rw [length_eq_zero_iff.mp h]
      exact forall_mem_nil _
    exact ⟨hr (by decide) (by decide) (by decide),trivial,trivial,trivial,hr (by decide) (by decide) (by decide),
      trivial,trivial,
      trivial,hr (by decide) (by decide) (by decide),trivial,trivial,trivial,hn (by decide),trivial⟩
  refine ⟨by decide,((delegations_mirrored _ hc).2 ⟨?_,?_,?_⟩).1⟩
  all_goals exact length_eq_zero_iff.mp (by decide)

/-- A zone's nameserver is replaced for a minute; a restart brings the old one back. -/
theorem replaced_delegation_returns :
    let s := play ⟨3600,300⟩ (initial [] []) [.insert zoneInsertion,.receive,.write 0,.insert ⟨0,.root,[.v4 2],60⟩]
    s.announced.length=0 ∧ s.queue.length=0 ∧ s.running.length=0 ∧
      (s.memory.entryOf .root).map Timed.value=some [.v4 2] ∧
      delegationLoadAll 0 s.table=[(.root,.v4 1,604800)] := by
  decide

end

end RolodexDns.DelegationPersistence
