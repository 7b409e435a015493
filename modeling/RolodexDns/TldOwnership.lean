import RolodexDns.NetworkScopes

/-! Who owns a TLD, what is forwarded for it and where it is listened for: the tables against the caches. The
calls check a cache, write the tables and then the caches, one step after the other and without a lock over
all of them. As long as no two calls overlap, every TLD has one owner, and whenever no call is running the
caches are what a restart would load. -/
namespace RolodexDns.TldOwnership
open DnsRecords StoredRecords ServerOperations NetworkScopes SharedStores List

variable {fmt : ScopeFormats} {s : ScopeStore}

inductive Call where
  | createNetworkScope (name homeDomain : Text)
  | deleteNetworkScope (name : Text)
  | addScopeTld (scope tld : Text)
  | removeScopeTld (scope tld : Text)
  | setScopeTldForwarders (scope tld : Text) (forwarders : List Text)
  | setTldListener (scope tld : Text) (ip : IpAddr)
  | removeTldListener (scope tld : Text)

def Call.program (fmt : ScopeFormats) : Call → ScopeProg Outcome
  | createNetworkScope name homeDomain => NetworkScopes.createNetworkScope fmt name homeDomain
  | deleteNetworkScope name => NetworkScopes.deleteNetworkScope name
  | addScopeTld scope tld => NetworkScopes.addScopeTld fmt scope tld
  | removeScopeTld scope tld => NetworkScopes.removeScopeTld fmt scope tld
  | setScopeTldForwarders scope tld forwarders => NetworkScopes.setScopeTldForwarders fmt scope tld forwarders
  | setTldListener scope tld ip => NetworkScopes.setTldListener fmt scope tld ip
  | removeTldListener scope tld => NetworkScopes.removeTldListener fmt scope tld

section
variable (s : ScopeStore)

def Owns (scope tld : Text) : Prop := (scope,tld)∈s.networkScopes ∨ (scope,tld)∈s.scopeTlds

instance (scope tld : Text) : Decidable (Owns s scope tld) := inferInstanceAs (Decidable (_ ∨ _))

def OneOwner : Prop := ∀ tld a b,Owns s a tld → Owns s b tld → a=b

variable (fmt : ScopeFormats)

/-- The caches are what a restart would load, and speak of scopes that exist and of TLDs they own; a TLD is
listened for by its owner only. -/
structure Coherent : Prop where
  owners : s.tldOwners=(s.restart fmt).tldOwners
  forwarders : s.tldForwarders=(s.restart fmt).tldForwarders
  ingress : s.tldIngress=(s.restart fmt).tldIngress
  ownersExist : ∀ tld scope,s.tldOwners tld=some scope → s.hasScope scope=true ∧ Owns s scope tld
  forwardersOwned : ∀ key peers,s.tldForwarders key=some peers → ∃ scope tld,key=tldFwdKey scope tld ∧ Owns s scope tld
  ingressOwned : ∀ tld ip,s.tldIngress tld=some ip →
    ∃ scope,Owns s scope tld ∧ (scope,tld,fmt.formatIp ip)∈s.tldListeners
  listenersOwned : ∀ e∈s.tldListeners,Owns s e.1 e.2.1

/-- What the tables keep by their constraints and by the checks of the calls. -/
structure Tables : Prop where
  oneOwner : OneOwner s
  homes : ∀ scope home home',(scope,home)∈s.networkScopes → (scope,home')∈s.networkScopes → home=home'
  scopesExist : ∀ e∈s.scopeTlds,s.hasScope e.1=true
  normalized : ∀ e∈s.networkScopes++s.scopeTlds,normalizeName fmt.toLowercase e.2=e.2
  forwardersOwned : ∀ e∈s.scopeTldForwarders,Owns s e.1 e.2.1
  forwardersPlain : ∀ e∈s.scopeTldForwarders,Char.ofNat 0∉e.1
  listenersOwned : ∀ e∈s.tldListeners,Owns s e.1 e.2.1
  listenersRead : ∀ e∈s.tldListeners,∃ ip,e.2.2=fmt.formatIp ip
  oneListener : ∀ e∈s.tldListeners,∀ e'∈s.tldListeners,e.1=e'.1 → e.2.1=e'.2.1 → e=e'

/-- A scope that is deleted has no listener, and peers are given, each once, to a TLD that the scope owns. Names
are without NUL where keys are made of them. -/
def Call.Proper : Call → Prop
  | deleteNetworkScope name => Char.ofNat 0∉name ∧ ∀ e∈s.tldListeners,e.1≠name
  | removeScopeTld scope _ => Char.ofNat 0∉scope
  | setScopeTldForwarders scope tld forwarders => Char.ofNat 0∉scope ∧ forwarders.Nodup ∧
    (s.hasScope scope=true → Owns s scope (normalizeName fmt.toLowercase tld))
  | _ => True

structure Settled : Prop extends Tables s fmt where
  owners : ∀ tld scope,s.tldOwners tld=some scope ↔ Owns s scope tld
  forwarders : ∀ key,s.tldForwarders key=s.loadForwarders fmt key
  ingress : ∀ tld ip,s.tldIngress tld=some ip ↔ ∃ scope,(scope,tld,fmt.formatIp ip)∈s.tldListeners

end

section
variable {rows : List (Text × Text × Text)} {scope tld : Text} {e : Text × Text × Text} {addrs : List Text}

/-- Peers that are given once each are stored as they are given. -/
theorem replacePeers_eq (h : addrs.Nodup) : replacePeers rows scope tld addrs =
    (rows.filter fun e => ¬ (e.1=scope ∧ e.2.1=tld))++addrs.map fun addr => (scope,tld,addr) := by
  unfold replacePeers
  induction addrs using reverseRecOn with
  | nil => simp
  | append_singleton addrs addr ih =>
    have hn : addr∉addrs := fun hm => (nodup_append.mp h).2.2 addr hm addr (mem_singleton_self _) rfl
    rw [foldl_append,ih (nodup_append.mp h).1,foldl_cons,foldl_nil,if_neg (by simpa using hn)]
    simp

theorem mem_upsert {ip : Text} : e∈upsert rows scope tld ip ↔ (e∈rows ∧ ¬ (e.1=scope ∧ e.2.1=tld)) ∨
      e=(scope,tld,ip) := by
  unfold upsert
  split
  · rename_i ha
    obtain ⟨old,ho,hk⟩ := any_eq_true.mp ha
    rw [mem_map]
    constructor
    · rintro ⟨e',he',rfl⟩
      split_ifs with hne
      · exact .inr rfl
      · exact .inl ⟨he',hne⟩
    · rintro (⟨he,hne⟩ | rfl)
      · exact ⟨e,he,if_neg hne⟩
      · exact ⟨old,ho,if_pos (of_decide_eq_true hk)⟩
  · rename_i hn
    rw [mem_append,mem_singleton]
    refine or_congr_left ⟨fun he => ⟨he,fun hk => hn (any_eq_true.mpr ⟨e,he,decide_eq_true hk⟩)⟩,And.left⟩

end

theorem nul_split {scope scope' tld tld' : Text} (h : Char.ofNat 0∉scope) (h' : Char.ofNat 0∉scope')
    (heq : tldFwdKey scope tld=tldFwdKey scope' tld') : scope=scope' ∧ tld=tld' := by
  have ht (s t : Text) (hs : Char.ofNat 0∉s) : (tldFwdKey s t).takeWhile (· ≠ Char.ofNat 0)=s := by
    unfold tldFwdKey
    rw [takeWhile_append_of_pos fun c hc => by simpa using fun hn : c=Char.ofNat 0 => hs (hn ▸ hc)]
    simp
  have hsc : scope=scope' := by rw [← ht scope tld h,heq,ht scope' tld' h']
  subst hsc
  exact ⟨rfl,cons.inj (append_cancel_left heq) |>.2⟩

/-- A key starts with a scope and NUL exactly if it is that scope's. -/
theorem isPrefixOf_tldFwdKey {scope name tld : Text} (h : Char.ofNat 0∉scope) (h' : Char.ofNat 0∉name) :
    (name++[Char.ofNat 0]).isPrefixOf (tldFwdKey scope tld)=decide (scope=name) := by
  refine Bool.eq_iff_iff.mpr ?_
  rw [ isPrefixOf_iff_prefix,decide_eq_true_eq]
  constructor
  · rintro ⟨rest,hr⟩
    have hk : tldFwdKey scope tld=tldFwdKey name rest := by rw [← hr,tldFwdKey,append_assoc]; rfl
    exact (nul_split h h' hk).1
  · rintro rfl
    exact ⟨tld,by simp [tldFwdKey]⟩

theorem ofPairs_eq_some_iff {α : Type} {pairs : List (Text × α)} (h : ∀ k v v',(k,v)∈pairs → (k,v')∈pairs → v=v')
    {k : Text} {v : α} : ofPairs pairs k=some v ↔ (k,v)∈pairs := by
  induction pairs using reverseRecOn with
  | nil => simp [ofPairs]
  | append_singleton pairs e ih =>
    have hih := ih fun k v v' hv hv' => h k v v' (mem_append_left _ hv) (mem_append_left _ hv')
    have hs : ofPairs (pairs++[e])=Function.update (ofPairs pairs) e.1 (some e.2) := by
      simp [ofPairs]
    rw [hs,mem_append,mem_singleton]
    by_cases hk : k=e.1
    · subst hk
      rw [Function.update_self,Option.some.injEq]
      constructor
      · rintro rfl
        exact .inr rfl
      · rintro (hv | heq)
        · exact h e.1 e.2 v (mem_append_right _ (mem_singleton_self _)) (mem_append_left _ hv)
        · exact (congrArg Prod.snd heq).symm
    · rw [Function.update_of_ne hk,hih]
      exact (or_iff_left fun heq => hk (congrArg Prod.fst heq)).symm

theorem loadOwners_eq_some_iff (h : Tables s fmt) {tld scope : Text} :
    s.loadOwners fmt tld=some scope ↔ Owns s scope tld := by
  have hp (k v : Text) : (k,v)∈((s.networkScopes++s.scopeTlds).map fun e =>
    (normalizeName fmt.toLowercase e.2,e.1)) ↔ Owns s v k := by
    rw [mem_map,Owns,← mem_append]
    constructor
    · rintro ⟨e,he,heq⟩
      rw [h.normalized e he] at heq
      cases heq
      exact he
    · intro hm
      exact ⟨(v,k),hm,by rw [h.normalized (v,k) hm]⟩
  unfold ScopeStore.loadOwners
  rw [ofPairs_eq_some_iff,hp]
  intro k v v' hv hv'
  exact h.oneOwner k v v' ((hp k v).mp hv) ((hp k v').mp hv')

def peersOf (fmt : ScopeFormats) (rows : List (Text × Text × Text)) (key : Text) : List SocketAddr :=
  (rows.filter fun e => tldFwdKey e.1 (normalizeName fmt.toLowercase e.2.1)=key).filterMap fun e =>
    fmt.parseSocketAddr e.2.2

theorem loadForwarders_eq (s : ScopeStore) (key : Text) : s.loadForwarders fmt key =
    if peersOf fmt s.scopeTldForwarders key=[] then none else some (peersOf fmt s.scopeTldForwarders key) := by
  unfold ScopeStore.loadForwarders
  induction s.scopeTldForwarders using reverseRecOn with
  | nil => rfl
  | append_singleton rows e ih =>
    have hpe : peersOf fmt (rows++[e]) key=peersOf fmt rows key++peersOf fmt [e] key := by simp [peersOf]
    rw [foldl_append,foldl_cons,foldl_nil,hpe]
    cases hp : fmt.parseSocketAddr e.2.2 with
    | none =>
      have hn : peersOf fmt [e] key=[] := filterMap_eq_nil_iff.mpr fun e' he' => by
        rw [mem_singleton.mp (mem_of_mem_filter he'),hp]
      rw [hn,append_nil]
      exact ih
    | some peer =>
      by_cases hk : tldFwdKey e.1 (normalizeName fmt.toLowercase e.2.1)=key
      · have ho : peersOf fmt [e] key=[peer] := by simp [peersOf,hk,hp]
        dsimp only
        rw [hk,Function.update_self,ih,ho,if_neg (append_ne_nil_of_right_ne_nil _ (cons_ne_nil peer []))]
        split <;> simp_all
      · have hn : peersOf fmt [e] key=[] := by simp [peersOf,hk]
        rw [hn,append_nil]
        exact (Function.update_of_ne (Ne.symm hk) _ _).trans ih

theorem loadIngress_eq_some_iff (hfmt : ∀ ip,fmt.parseIp (fmt.formatIp ip)=some ip) (h : Tables s fmt)
    {tld : Text} {ip : IpAddr} :
    s.loadIngress fmt tld=some ip ↔ ∃ scope,(scope,tld,fmt.formatIp ip)∈s.tldListeners := by
  have hp (k : Text) (v : IpAddr) : (k,v)∈s.tldListeners.filterMap (fun e =>
      (fmt.parseIp e.2.2).map fun ip => (normalizeName fmt.toLowercase e.2.1,ip)) ↔
        ∃ scope,(scope,k,fmt.formatIp v)∈s.tldListeners := by
    have hr {e : Text × Text × Text} (he : e∈s.tldListeners) :
        ∃ ip,e.2.2=fmt.formatIp ip ∧
          (fmt.parseIp e.2.2).map (fun ip => (normalizeName fmt.toLowercase e.2.1,ip))=some (e.2.1,ip) := by
      obtain ⟨ip,hip⟩ := h.listenersRead e he
      refine ⟨ip,hip,?_⟩
      rw [hip,hfmt,Option.map_some,h.normalized (e.1,e.2.1) (mem_append.mpr (h.listenersOwned e he))]
    rw [mem_filterMap]
    constructor
    · rintro ⟨e,he,hs⟩
      obtain ⟨ip,hip,hm⟩ := hr he
      rw [hm] at hs
      cases hs
      exact ⟨e.1,hip ▸ he⟩
    · rintro ⟨scope,he⟩
      obtain ⟨ip,hip,hm⟩ := hr he
      have hsa : v=ip := Option.some.inj ((hfmt v).symm.trans ((congrArg fmt.parseIp hip).trans (hfmt ip)))
      exact ⟨_,he,hm.trans (by rw [hsa])⟩
  unfold ScopeStore.loadIngress
  rw [ofPairs_eq_some_iff,hp]
  intro k v v' hv hv'
  obtain ⟨scope,he⟩ := (hp k v).mp hv
  obtain ⟨scope',he'⟩ := (hp k v').mp hv'
  have hsc : scope=scope' := h.oneOwner k scope scope' (h.listenersOwned _ he) (h.listenersOwned _ he')
  have hro := h.oneListener _ he _ he' hsc rfl
  have hip : fmt.formatIp v=fmt.formatIp v' := congrArg (fun e => e.2.2) hro
  exact Option.some.inj ((hfmt v).symm.trans ((congrArg fmt.parseIp hip).trans (hfmt v')))

section

/-- A map that lists a relation lists what it becomes at one key after the entry there is put right. -/
theorem update_lists {α : Type} {m : Text → Option α} {R Q : Text → α → Prop} {k : Text} {new : Option α}
    (h : ∀ t a,m t=some a ↔ R t a) (ho : ∀ t a,t≠k → (Q t a ↔ R t a)) (hk : ∀ a,new=some a ↔ Q k a) (t : Text) (a : α) :
    Function.update m k new t=some a ↔ Q t a := by
  by_cases ht : t=k
  · rw [ht,Function.update_self,hk]
  · rw [Function.update_of_ne ht,h,ho t a ht]

variable {scope tld : Text}

theorem hasScope_iff : s.hasScope scope=true ↔ ∃ home,(scope,home)∈s.networkScopes := by
  simp [ScopeStore.hasScope]

theorem filterMap_parseSocketAddr {addrs : List Text} {peers : List SocketAddr}
    (h : parseForwarders fmt addrs=.ok peers) :
    addrs.filterMap fmt.parseSocketAddr=peers := by
  induction addrs generalizing peers with
  | nil =>
    cases h
    rfl
  | cons addr addrs ih =>
    unfold parseForwarders at h
    cases ha : fmt.parseSocketAddr addr with
    | none => simp [ha] at h
    | some peer =>
      cases hr : parseForwarders fmt addrs with
      | error bad => simp [ha,hr,Except.map] at h
      | ok rest =>
        simp only [ha,hr,Except.map,Except.ok.injEq] at h
        rw [filterMap_cons_some ha,ih hr,h]

variable (h : Tables s fmt)
include h

theorem Tables.hasScope_of_owns (ho : Owns s scope tld) : s.hasScope scope=true := by
  rcases ho with hh | ht
  · exact hasScope_iff.mpr ⟨tld,hh⟩
  · exact h.scopesExist _ ht

/-- What holds of the tables holds when rows are taken from them, as long as what is left belongs together. -/
theorem Tables.shrink {s' : ScopeStore} (hs : s'.networkScopes⊆s.networkScopes) (htl : s'.scopeTlds⊆s.scopeTlds)
    (hei : ∀ e∈s'.scopeTlds,s'.hasScope e.1=true)
    (hf : ∀ e∈s'.scopeTldForwarders,e∈s.scopeTldForwarders ∧ Owns s' e.1 e.2.1)
    (hl : ∀ e∈s'.tldListeners,e∈s.tldListeners ∧ Owns s' e.1 e.2.1) : Tables s' fmt := by
  have ho {scope tld : Text} (how : Owns s' scope tld) : Owns s scope tld :=
    how.imp (@hs _) (@htl _)
  exact {
    oneOwner := fun tld a b ha hb => h.oneOwner tld a b (ho ha) (ho hb)
    homes := fun scope t t' ht ht' => h.homes scope t t' (hs ht) (hs ht')
    scopesExist := hei
    normalized := fun e he => h.normalized e (mem_append.mpr (ho (mem_append.mp he)))
    forwardersOwned := fun e he => (hf e he).2
    forwardersPlain := fun e he => h.forwardersPlain e (hf e he).1
    listenersOwned := fun e he => (hl e he).2
    listenersRead := fun e he => h.listenersRead e (hl e he).1
    oneListener := fun e he e' he' => h.oneListener e (hl e he).1 e' (hl e' he').1 }

/-- A TLD that nobody else owns is given to a scope. -/
theorem Tables.grow {scopes tlds : List (Text × Text)} (ht : normalizeName fmt.toLowercase tld=tld)
    (hr : ∀ e,e∈scopes ∨ e∈tlds ↔ (e∈s.networkScopes ∨ e∈s.scopeTlds) ∨ e=(scope,tld))
    (hf : ∀ other,Owns s other tld → other=scope)
    (hh : ∀ scope home home',(scope,home)∈scopes → (scope,home')∈scopes → home=home')
    (hei : ∀ e∈tlds,scopes.any (·.1=e.1)=true) : Tables { s with networkScopes := scopes, scopeTlds := tlds } fmt := by
  have hm {a t : Text} (how : Owns s a t) : Owns { s with networkScopes := scopes, scopeTlds := tlds } a t :=
    (hr _).mpr (.inl how)
  refine ⟨fun t a b ha hb => ?_,hh,hei,fun e he => ?_,fun e he => hm (h.forwardersOwned e he),
    h.forwardersPlain,fun e he => hm (h.listenersOwned e he),h.listenersRead,h.oneListener⟩
  · rcases (hr _).mp ha with ho | ⟨⟨⟩⟩ <;> rcases (hr _).mp hb with ho' | heq'
    · exact h.oneOwner t a b ho ho'
    · cases heq'
      exact hf a ho
    · exact (hf b ho').symm
    · exact (Prod.mk.inj heq').1.symm
  · rcases (hr e).mp (mem_append.mp he) with ho | rfl
    · exact h.normalized e (mem_append.mpr ho)
    · exact ht

/-- With the tables in order it remains to compare the caches with them. -/
theorem Tables.settled {owners forwarders ingress count cached held}
    (ho : ∀ tld scope,owners tld=some scope ↔ Owns s scope tld)
    (hf : ∀ key,forwarders key=s.loadForwarders fmt key)
    (hi : ∀ tld ip,ingress tld=some ip ↔ ∃ scope,(scope,tld,fmt.formatIp ip)∈s.tldListeners) :
    Settled { s with
      tldOwners := owners, tldForwarders := forwarders, tldIngress := ingress, scopeCount := count
      scopedCache := cached, held := held } fmt :=
  ⟨⟨h.oneOwner,h.homes,h.scopesExist,h.normalized,h.forwardersOwned,h.forwardersPlain,h.listenersOwned,h.listenersRead,
    h.oneListener⟩,ho,hf,hi⟩

/-- The rows under the key of a scope's TLD are the scope's of that TLD. -/
theorem Tables.fwdKey_eq_iff {e : Text × Text × Text} (he : e∈s.scopeTldForwarders) (hp : Char.ofNat 0∉scope) :
    tldFwdKey e.1 (normalizeName fmt.toLowercase e.2.1)=tldFwdKey scope tld ↔ e.1=scope ∧ e.2.1=tld := by
  rw [h.normalized (e.1,e.2.1) (mem_append.mpr (h.forwardersOwned e he))]
  exact ⟨nul_split (h.forwardersPlain e he) hp,fun heq => by rw [heq.1,heq.2]⟩

/-- With a scope go the peers under the keys that start with it and NUL. -/
theorem Tables.loadForwarders_deleteScope {name : Text} (hp : Char.ofNat 0∉name) (key : Text) :
    (s.exec fmt (.deleteScope name)).2.loadForwarders fmt key =
      (s.loadForwarders fmt key).filter fun _ => !(name++[Char.ofNat 0]).isPrefixOf key := by
  have hke : peersOf fmt (s.exec fmt (.deleteScope name)).2.scopeTldForwarders key =
      if (name++[Char.ofNat 0]).isPrefixOf key then [] else peersOf fmt s.scopeTldForwarders key := by
    have hs {e : Text × Text × Text} (he : e∈s.scopeTldForwarders)
        (heq : tldFwdKey e.1 (normalizeName fmt.toLowercase e.2.1)=key) :
        (name++[Char.ofNat 0]).isPrefixOf key=decide (e.1=name) := by
      rw [← heq,isPrefixOf_tldFwdKey (h.forwardersPlain e he) hp]
    simp only [ScopeStore.exec,peersOf,filter_filter]
    split
    · rename_i hk
      rw [filter_eq_nil_iff.mpr fun e he => ?_,filterMap_nil]
      simpa using fun heq => of_decide_eq_true ((hs he heq).symm.trans hk)
    · rename_i hk
      congr 1
      refine filter_congr fun e he => ?_
      by_cases heq : tldFwdKey e.1 (normalizeName fmt.toLowercase e.2.1)=key
      · have hn : e.1≠name := by simpa [hs he heq] using hk
        simp [hn]
      · simp [heq]
  rw [loadForwarders_eq,loadForwarders_eq,hke]
  cases (name++[Char.ofNat 0]).isPrefixOf key with
  | true => cases peersOf fmt s.scopeTldForwarders key <;> rfl
  | false => cases peersOf fmt s.scopeTldForwarders key <;> rfl

/-- Replacing the peers of a TLD changes what is loaded under its key only. -/
theorem Tables.loadForwarders_replace {addrs : List Text} {peers : List SocketAddr} (hp : Char.ofNat 0∉scope)
    (hn : normalizeName fmt.toLowercase tld=tld) (hno : addrs.Nodup) (hpa : parseForwarders fmt addrs=.ok peers)
    (s' : ScopeStore)
    (hr : s'.scopeTldForwarders=replacePeers s.scopeTldForwarders scope tld addrs) (key : Text) :
    Function.update (s.loadForwarders fmt) (tldFwdKey scope tld) (if peers=[] then none else some peers) key =
      s'.loadForwarders fmt key := by
  rw [loadForwarders_eq s']
  by_cases hk : key=tldFwdKey scope tld
  · have hpe : peersOf fmt s'.scopeTldForwarders key=peers := by
      unfold peersOf
      rw [hr,replacePeers_eq hno,filter_append,filter_eq_nil_iff.mpr fun e he => ?_,nil_append,
        filter_eq_self.mpr (by simp [hn,hk]),filterMap_map]
      · exact filterMap_parseSocketAddr hpa
      · obtain ⟨he,hne⟩ := mem_filter.mp he
        rw [hk,decide_eq_true_eq,h.fwdKey_eq_iff he hp]
        exact of_decide_eq_true hne
    rw [hk,Function.update_self,← hk,hpe]
  · have hs : peersOf fmt s'.scopeTldForwarders key=peersOf fmt s.scopeTldForwarders key := by
      unfold peersOf
      have hnn : (addrs.map fun addr => (scope,tld,addr)).filter (fun e =>
          tldFwdKey e.1 (normalizeName fmt.toLowercase e.2.1)=key)=[] := by
        simpa [hn] using fun _ _ => Ne.symm hk
      rw [hr,replacePeers_eq hno,filter_append,hnn,append_nil,filter_filter]
      congr 1
      refine filter_congr fun e he => ?_
      by_cases hro : e.1=scope ∧ e.2.1=tld
      · simp [hro.1,hro.2,hn,Ne.symm hk]
      · simp [hro]
    rw [Function.update_of_ne hk,loadForwarders_eq,hs]

end

section

/-- A program on its way from a settled state to another. -/
abbrev Settles (fmt : ScopeFormats) (p : ScopeProg Outcome) (s : ScopeStore) : Prop :=
  Restores (scopeStore fmt) OneOwner (Settled · fmt) p s

theorem settles_tldOwner {tld : Text} {f : Option Text → ScopeProg Outcome} :
    Settles fmt (ScopeProg.perform (.tldOwner tld) >>= f) s ↔ OneOwner s ∧ Settles fmt (f (s.tldOwners tld)) s :=
  Iff.rfl

theorem settles_networkScope {name : Text} {f : Option Text → ScopeProg Outcome} :
    Settles fmt (ScopeProg.perform (.networkScope name) >>= f) s ↔
      OneOwner s ∧ Settles fmt (f ((s.networkScopes.find? (·.1=name)).map Prod.snd)) s := Iff.rfl

variable (hfmt : fmt.Lawful) (h : Settled s fmt)
include hfmt h

theorem Settled.createNetworkScope (name homeDomain : Text) :
    Settles fmt (createNetworkScope fmt name homeDomain) s := by
  have hno := hfmt.normalizeName_normalizeName homeDomain
  unfold NetworkScopes.createNetworkScope
  generalize normalizeName fmt.toLowercase homeDomain=home at hno ⊢
  refine settles_tldOwner.mpr ⟨h.oneOwner,?_⟩
  split
  · exact h
  rename_i hf
  refine restores_perform.mpr ⟨h.oneOwner,?_⟩
  by_cases hn : (s.networkScopes.any fun e => e.1=name || e.2=home)=true
  · rw [show (scopeStore fmt).exec s (.insertScope name home)=(false,s) from if_pos hn]
    exact h
  rw [show (scopeStore fmt).exec s (.insertScope name home) =
    (true,{ s with networkScopes := s.networkScopes++[(name,home)] }) from if_neg hn]
  have hn' : ∀ e∈s.networkScopes,e.1≠name ∧ e.2≠home := by simpa using hn
  -- an owner of the domain would be the scope itself, which does not exist yet
  have hfr (other : Text) : ¬ Owns s other home := by
    intro ho
    have hna : other=name := by simpa [(h.owners home other).mpr ho] using hf
    obtain ⟨old,hol⟩ := hasScope_iff.mp (h.hasScope_of_owns ho)
    exact (hn' _ hol).1 hna
  have hm (e : Text × Text) : e∈s.networkScopes++[(name,home)] ↔ e∈s.networkScopes ∨ e=(name,home) := by simp
  have hta : Tables { s with networkScopes := s.networkScopes++[(name,home)] } fmt := by
    refine h.grow hno (fun e => by rw [hm,or_right_comm]) (fun other ho => absurd ho (hfr other)) ?_ ?_
    · intro scope t t' ht ht'
      rcases (hm _).mp ht with ht | heq <;> rcases (hm _).mp ht' with ht' | heq'
      · exact h.homes scope t t' ht ht'
      · exact absurd (Prod.mk.inj heq').1 (hn' _ ht).1
      · exact absurd (Prod.mk.inj heq).1 (hn' _ ht').1
      · exact (Prod.mk.inj heq).2.trans (Prod.mk.inj heq').2.symm
    · intro e he
      rw [any_append,show s.networkScopes.any (·.1=e.1)=true from h.scopesExist e he,Bool.true_or]
  have how := update_lists (Q := fun t scope => Owns _ scope t) h.owners (fun t a ht => by simp [Owns,ht]) fun scope =>
    ⟨fun hs => .inl (mem_append_right _ (by simp [Option.some.inj hs])),fun ho =>
      congrArg some (hta.oneOwner home name scope (.inl (by simp)) ho)⟩
  exact ⟨hta.oneOwner,hta.oneOwner,hta.settled how h.forwarders h.ingress⟩

omit hfmt in
theorem Settled.deleteNetworkScope {name : Text} (hp : (Call.deleteNetworkScope name).Proper s fmt) :
    Settles fmt (deleteNetworkScope name) s := by
  obtain ⟨hpl,hs⟩ := hp
  have how (scope tld : Text) : Owns (s.exec fmt (.deleteScope name)).2 scope tld ↔ Owns s scope tld ∧ scope≠name := by
    simp [Owns,ScopeStore.exec,or_and_right]
  have hl : (s.exec fmt (.deleteScope name)).2.tldListeners=s.tldListeners := by
    simp only [ScopeStore.exec,ite_eq_right_iff,filter_eq_self]
    exact fun _ e he => decide_eq_true (hs e he)
  have ht : Tables (s.exec fmt (.deleteScope name)).2 fmt := by
    refine h.shrink (filter_subset_self _) (filter_subset_self _) (fun e he => ?_) (fun e he => ?_) (fun e he => ?_)
    · obtain ⟨he,hne⟩ := mem_filter.mp he
      obtain ⟨home,hh⟩ := hasScope_iff.mp (h.scopesExist e he)
      exact hasScope_iff.mpr ⟨home,mem_filter.mpr ⟨hh,hne⟩⟩
    · obtain ⟨he,hne⟩ := mem_filter.mp he
      exact ⟨he,(how _ _).mpr ⟨h.forwardersOwned e he,of_decide_eq_true hne⟩⟩
    · rw [hl] at he
      exact ⟨he,(how _ _).mpr ⟨h.listenersOwned e he,hs e he⟩⟩
  have ho (tld scope : Text) : (s.tldOwners tld).filter (· ≠ name)=some scope ↔
    Owns (s.exec fmt (.deleteScope name)).2 scope tld := by
    rw [how,← h.owners,Option.filter_eq_some_iff,decide_eq_true_eq]
  have hf (key : Text) : (s.tldForwarders key).filter (fun _ => !(name++[Char.ofNat 0]).isPrefixOf key) =
      (s.exec fmt (.deleteScope name)).2.loadForwarders fmt key := by
    rw [h.loadForwarders_deleteScope hpl,h.forwarders]
  have hi (tld : Text) (ip : IpAddr) : s.tldIngress tld=some ip ↔
      ∃ scope,(scope,tld,fmt.formatIp ip)∈(s.exec fmt (.deleteScope name)).2.tldListeners := by
    rw [hl]
    exact h.ingress tld ip
  refine ⟨h.oneOwner,ht.oneOwner,ht.oneOwner,ht.oneOwner,?_⟩
  split
  · exact ⟨ht.oneOwner,ht.oneOwner,ht.settled ho hf hi⟩
  · exact ⟨ht.oneOwner,ht.settled ho hf hi⟩

theorem Settled.addScopeTld (scope tld : Text) :
    Settles fmt (addScopeTld fmt scope tld) s := by
  have hn := hfmt.normalizeName_normalizeName tld
  unfold NetworkScopes.addScopeTld
  generalize normalizeName fmt.toLowercase tld=tld at hn ⊢
  dsimp only
  split
  · exact h
  refine settles_tldOwner.mpr ⟨h.oneOwner,?_⟩
  split
  · exact h
  rename_i hfo
  have hf (other : Text) (ho : Owns s other tld) : other=scope := by
    simpa [(h.owners tld other).mpr ho] using hfo
  refine settles_networkScope.mpr ⟨h.oneOwner,?_⟩
  split
  · exact h
  rename_i home hh
  obtain ⟨e,he,-⟩ := Option.map_eq_some_iff.mp hh
  have hs : s.hasScope scope=true :=
    any_eq_true.mpr ⟨e,mem_of_find?_eq_some he,by simpa using find?_some he⟩
  refine restores_perform.mpr ⟨h.oneOwner,?_⟩
  by_cases htk : s.scopeTlds.any (·.2=tld)=true
  · rw [show (scopeStore fmt).exec s (.insertScopeTld scope tld)=(true,s) from if_pos htk]
    obtain ⟨⟨a,t⟩,hr,ht⟩ := any_eq_true.mp htk
    obtain rfl : t=tld := of_decide_eq_true ht
    have ho : Owns s scope t := hf a (.inr hr) ▸ .inr hr
    refine ⟨h.oneOwner,h.toTables.settled ?_ h.forwarders h.ingress⟩
    exact update_lists (Q := fun t scope => Owns s scope t) h.owners (fun _ _ _ => Iff.rfl) fun other =>
      ⟨fun heq => Option.some.inj heq ▸ ho,fun hot => congrArg some (hf other hot).symm⟩
  rw [show (scopeStore fmt).exec s (.insertScopeTld scope tld)=(true,
    { s with scopeTlds := s.scopeTlds++[(scope,tld)] }) from
    (if_neg htk).trans (if_pos hs)]
  have hta : Tables { s with scopeTlds := s.scopeTlds++[(scope,tld)] } fmt := by
    refine h.grow hn (fun e => by rw [mem_append,mem_singleton,or_assoc]) hf h.homes ?_
    exact forall_mem_append.mpr ⟨h.scopesExist,forall_mem_singleton.mpr hs⟩
  have how := update_lists (Q := fun t scope => Owns _ scope t) h.owners (fun t a ht => by simp [Owns,ht]) fun other =>
    ⟨fun hot => .inr (mem_append_right _ (by simp [Option.some.inj hot])),fun ho =>
      congrArg some (hta.oneOwner tld scope other (.inr (by simp)) ho)⟩
  exact ⟨hta.oneOwner,hta.settled how h.forwarders h.ingress⟩

theorem Settled.removeScopeTld {scope tld : Text} (hp : (Call.removeScopeTld scope tld).Proper s fmt) :
    Settles fmt (removeScopeTld fmt scope tld) s := by
  have hn := hfmt.normalizeName_normalizeName tld
  unfold NetworkScopes.removeScopeTld
  generalize normalizeName fmt.toLowercase tld=tld at hn ⊢
  refine settles_networkScope.mpr ⟨h.oneOwner,?_⟩
  split
  · exact h
  rename_i hh
  have hh' : (scope,tld)∉s.networkScopes := by
    intro hm
    cases hf : s.networkScopes.find? (·.1=scope) with
    | none => simpa using find?_eq_none.mp hf _ hm
    | some e =>
      obtain ⟨a,t⟩ := e
      obtain rfl : a=scope := by simpa using find?_some hf
      have htl : t=tld := h.homes a t tld (mem_of_find?_eq_some hf) hm
      exact hh (by simp [hf,htl,hn])
  refine restores_perform.mpr ⟨h.oneOwner,?_⟩
  by_cases hd : (s.scopeTlds.any fun e => e.1=scope ∧ e.2=tld)=true
  · rw [if_pos (show ((scopeStore fmt).exec s (.deleteScopeTld scope tld)).1=true from hd)]
    obtain ⟨⟨a,t⟩,hr,heq⟩ := any_eq_true.mp hd
    obtain ⟨rfl,rfl⟩ : a=scope ∧ t=tld := of_decide_eq_true heq
    have how (b u : Text) : Owns (s.exec fmt (.deleteScopeTld a t)).2 b u ↔ Owns s b u ∧ u≠t := by
      simp only [Owns,ScopeStore.exec,mem_filter,decide_eq_true_eq]
      constructor
      · rintro (ho | ⟨ho,hne⟩)
        · exact ⟨.inl ho,fun hu => hh' (h.oneOwner t b a (.inl (hu ▸ ho)) (.inr hr) ▸ hu ▸ ho)⟩
        · exact ⟨.inr ho,fun hu => hne ⟨h.oneOwner t b a (.inr (hu ▸ ho)) (.inr hr),hu⟩⟩
      · rintro ⟨ho | ho,hne⟩
        · exact .inl ho
        · exact .inr ⟨ho,fun heq => hne heq.2⟩
    have hl (e : Text × Text × Text) : e∈(s.exec fmt (.deleteScopeTld a t)).2.tldListeners ↔
      e∈s.tldListeners ∧ e.2.1≠t := by
      simp only [ScopeStore.exec,mem_filter,decide_eq_true_eq]
      refine and_congr_right fun he => ⟨fun hne htl => hne ⟨?_,htl⟩,fun hne heq => hne heq.2⟩
      exact h.oneOwner t e.1 a (htl ▸ h.listenersOwned e he) (.inr hr)
    have ht : Tables (s.exec fmt (.deleteScopeTld a t)).2 fmt := by
      refine h.shrink (List.Subset.refl _) (filter_subset_self _) (fun e he => h.scopesExist e (mem_of_mem_filter he))
        (fun e he => ?_) (fun e he => ?_)
      · obtain ⟨he,hne⟩ := mem_filter.mp he
        refine ⟨he,(how _ _).mpr ⟨h.forwardersOwned e he,fun htl => of_decide_eq_true hne ⟨?_,htl⟩⟩⟩
        exact h.oneOwner t e.1 a (htl ▸ h.forwardersOwned e he) (.inr hr)
      · obtain ⟨he,hne⟩ := (hl e).mp he
        exact ⟨he,(how _ _).mpr ⟨h.listenersOwned e he,hne⟩⟩
    refine ⟨ht.oneOwner,ht.oneOwner,ht.oneOwner,ht.settled ?_ ?_ ?_⟩
    · exact update_lists (Q := fun u b => Owns _ b u) h.owners (fun u b hu => by simp [how,hu]) fun b => by simp [how]
    · intro key
      rw [← h.toTables.loadForwarders_replace hp hn nodup_nil rfl _ rfl key]
      exact congrFun (congrArg (Function.update · _ _) (funext h.forwarders)) key
    · refine update_lists h.ingress (fun u ip hu => ?_) fun ip => ?_
      · simp [hl,hu]
      · simp [hl]
  · have hno : ¬ Owns s scope tld := by
      rintro (ho | ho)
      · exact hh' ho
      · exact hd (any_eq_true.mpr ⟨_,ho,by simp⟩)
    have hs : (scopeStore fmt).exec s (.deleteScopeTld scope tld)=(false,s) := by
      have hro {rows : List (Text × Text × Text)} (hon : ∀ e∈rows,Owns s e.1 e.2.1) :
          (rows.filter fun e => ¬ (e.1=scope ∧ e.2.1=tld))=rows :=
        filter_eq_self.mpr fun e he => decide_eq_true fun heq => hno (heq.1 ▸ heq.2 ▸ hon e he)
      have htd : (s.scopeTlds.filter fun e => ¬ (e.1=scope ∧ e.2=tld))=s.scopeTlds :=
        filter_eq_self.mpr fun e he => decide_eq_true fun heq => hd (any_eq_true.mpr ⟨e,he,decide_eq_true heq⟩)
      simp only [scopeStore,ScopeStore.exec,hro h.forwardersOwned,hro h.listenersOwned,htd,Bool.eq_false_iff.mpr hd]
    rw [hs]
    exact h

theorem Settled.setScopeTldForwarders {scope tld : Text} {forwarders : List Text}
    (hpr : (Call.setScopeTldForwarders scope tld forwarders).Proper s fmt) :
    Settles fmt (setScopeTldForwarders fmt scope tld forwarders) s := by
  obtain ⟨hp,hno,ho⟩ := hpr
  have hn := hfmt.normalizeName_normalizeName tld
  unfold NetworkScopes.setScopeTldForwarders
  generalize normalizeName fmt.toLowercase tld=tld at hn ho ⊢
  dsimp only
  split
  · exact h
  rename_i peers hpa
  refine settles_tldOwner.mpr ⟨h.oneOwner,?_⟩
  split
  · exact h
  refine restores_perform.mpr ⟨h.oneOwner,?_⟩
  have ht {addrs : List Text} (had : addrs.Nodup) (hk : addrs=[] ∨ s.hasScope scope=true) :
      Tables { s with scopeTldForwarders := replacePeers s.scopeTldForwarders scope tld addrs } fmt := by
    refine ⟨h.oneOwner,h.homes,h.scopesExist,h.normalized,?_,?_,h.listenersOwned,h.listenersRead,h.oneListener⟩
    all_goals
      rw [replacePeers_eq had]
      refine forall_mem_append.mpr ⟨fun e he => ?_,forall_mem_map.mpr fun addr har => ?_⟩
    · exact h.forwardersOwned e (mem_of_mem_filter he)
    · exact ho (hk.resolve_left (ne_nil_of_mem har))
    · exact h.forwardersPlain e (mem_of_mem_filter he)
    · exact hp
  by_cases hk : (forwarders.isEmpty || s.hasScope scope)=true
  · have hee : (scopeStore fmt).exec s (.replaceForwarders scope tld forwarders) =
        (true,{ s with scopeTldForwarders := replacePeers s.scopeTldForwarders scope tld forwarders }) := by
      simp only [scopeStore,ScopeStore.exec,hk,if_true]
    rw [hee]
    have ha := ht hno (by simpa using hk)
    have hl (key : Text) := h.toTables.loadForwarders_replace hp hn hno hpa
      { s with scopeTldForwarders := replacePeers s.scopeTldForwarders scope tld forwarders } rfl key
    rw [← funext h.forwarders] at hl
    cases peers with
    | nil => exact ⟨ha.oneOwner,ha.settled h.owners hl h.ingress⟩
    | cons peer peers => exact ⟨ha.oneOwner,ha.settled h.owners hl h.ingress⟩
  · -- there are no old peers either, for they would be of a scope that exists
    have hee : (scopeStore fmt).exec s (.replaceForwarders scope tld forwarders)=(false,s) := by
      have hr : replacePeers s.scopeTldForwarders scope tld []=s.scopeTldForwarders := by
        refine filter_eq_self.mpr fun e he => decide_eq_true fun heq => hk ?_
        rw [← heq.1,h.hasScope_of_owns (h.forwardersOwned e he),Bool.or_true]
      simp only [scopeStore,ScopeStore.exec,Bool.eq_false_iff.mpr hk,Bool.false_eq_true,if_false,hr]
    rw [hee]
    exact h

theorem Settled.setTldListener (scope tld : Text) (ip : IpAddr) : Settles fmt (setTldListener fmt scope tld ip) s := by
  unfold NetworkScopes.setTldListener
  generalize normalizeName fmt.toLowercase tld=tld
  refine settles_tldOwner.mpr ⟨h.oneOwner,?_⟩
  cases hf : s.tldOwners tld with
  | none => exact h
  | some owner =>
    dsimp only
    split
    · rename_i heq
      subst heq
      have ho := (h.owners tld owner).mp hf
      refine restores_perform.mpr ⟨h.oneOwner,?_⟩
      rw [show (scopeStore fmt).exec s (.upsertListener owner tld ip) =
        (true,{ s with tldListeners := upsert s.tldListeners owner tld (fmt.formatIp ip) }) from
        if_pos (h.hasScope_of_owns ho)]
      have ht : Tables { s with tldListeners := upsert s.tldListeners owner tld (fmt.formatIp ip) } fmt := by
        refine ⟨h.oneOwner,h.homes,h.scopesExist,h.normalized,h.forwardersOwned,h.forwardersPlain,fun e he => ?_,
          fun e he => ?_,fun e he e' he' hs htl => ?_⟩
        · rcases mem_upsert.mp he with ⟨he,-⟩ | rfl
          · exact h.listenersOwned e he
          · exact ho
        · rcases mem_upsert.mp he with ⟨he,-⟩ | rfl
          · exact h.listenersRead e he
          · exact ⟨ip,rfl⟩
        · rcases mem_upsert.mp he with ⟨he,hne⟩ | rfl <;> rcases mem_upsert.mp he' with ⟨he',hne'⟩ | rfl
          · exact h.oneListener e he e' he' hs htl
          · exact absurd ⟨hs,htl⟩ hne
          · exact absurd ⟨hs.symm,htl.symm⟩ hne'
          · rfl
      refine ⟨ht.oneOwner,ht.settled h.owners h.forwarders (update_lists h.ingress (fun u a hu => ?_) fun a => ?_)⟩
      · simp [mem_upsert,hu]
      · rw [← loadIngress_eq_some_iff hfmt.parseIp_formatIp ht,
          (loadIngress_eq_some_iff hfmt.parseIp_formatIp ht).mpr ⟨owner,mem_upsert.mpr (.inr rfl)⟩]
    · exact h

omit hfmt in
theorem Settled.removeTldListener (scope tld : Text) : Settles fmt (removeTldListener fmt scope tld) s := by
  unfold NetworkScopes.removeTldListener
  generalize normalizeName fmt.toLowercase tld=tld
  refine restores_perform.mpr ⟨h.oneOwner,?_⟩
  have ht : Tables (s.exec fmt (.deleteListener scope tld)).2 fmt :=
    h.shrink (List.Subset.refl _) (List.Subset.refl _) h.scopesExist (fun e he => ⟨he,h.forwardersOwned e he⟩)
      fun e he => ⟨mem_of_mem_filter he,h.listenersOwned e (mem_of_mem_filter he)⟩
  by_cases hd : (s.tldListeners.any fun e => e.1=scope ∧ e.2.1=tld)=true
  · rw [if_pos (show ((scopeStore fmt).exec s (.deleteListener scope tld)).1=true from hd)]
    obtain ⟨old,ho,heq⟩ := any_eq_true.mp hd
    obtain ⟨rfl,rfl⟩ : old.1=scope ∧ old.2.1=tld := of_decide_eq_true heq
    refine ⟨ht.oneOwner,ht.settled h.owners h.forwarders (update_lists h.ingress (fun u ip hu => ?_) fun ip => ?_)⟩
    · simp [ScopeStore.exec,hu]
    · simp only [ScopeStore.exec,mem_filter,decide_eq_true_eq,reduceCtorEq,false_iff,not_exists]
      rintro owner ⟨hro,hne⟩
      exact hne ⟨h.oneOwner _ _ _ (h.listenersOwned _ hro) (h.listenersOwned _ ho),trivial⟩
  · have hs : (scopeStore fmt).exec s (.deleteListener scope tld)=(false,s) := by
      have hr : (s.tldListeners.filter fun e => ¬ (e.1=scope ∧ e.2.1=tld))=s.tldListeners :=
        filter_eq_self.mpr fun e he => decide_eq_true fun heq => hd (any_eq_true.mpr ⟨e,he,decide_eq_true heq⟩)
      simp only [scopeStore,ScopeStore.exec,hr,Bool.eq_false_iff.mpr hd]
    rw [hs]
    exact h

end

theorem Settled.call (hfmt : fmt.Lawful) (h : Settled s fmt) {call : Call} (hp : call.Proper s fmt) :
    Settles fmt (call.program fmt) s := by
  cases call with
  | createNetworkScope name homeDomain => exact h.createNetworkScope hfmt name homeDomain
  | deleteNetworkScope name => exact h.deleteNetworkScope hp
  | addScopeTld scope tld => exact h.addScopeTld hfmt scope tld
  | removeScopeTld scope tld => exact h.removeScopeTld hfmt hp
  | setScopeTldForwarders scope tld forwarders => exact h.setScopeTldForwarders hfmt hp
  | setTldListener scope tld ip => exact h.setTldListener hfmt scope tld ip
  | removeTldListener scope tld => exact h.removeTldListener scope tld

theorem Settled.coherent (hfmt : fmt.Lawful) (h : Settled s fmt) : Coherent s fmt := by
  refine ⟨funext fun tld => Option.ext fun scope => ?_,funext h.forwarders,funext fun tld => Option.ext fun ip => ?_,
    fun tld scope hc => ?_,fun key peers hc => ?_,fun tld ip hc => ?_,h.listenersOwned⟩
  · exact (h.owners tld scope).trans (loadOwners_eq_some_iff h.toTables).symm
  · exact (h.ingress tld ip).trans (loadIngress_eq_some_iff hfmt.parseIp_formatIp h.toTables).symm
  · have ho := (h.owners tld scope).mp hc
    exact ⟨h.hasScope_of_owns ho,ho⟩
  · rw [h.forwarders,loadForwarders_eq] at hc
    split at hc
    · cases hc
    · rename_i hp
      obtain ⟨peer,hpe⟩ := exists_mem_of_ne_nil _ hp
      obtain ⟨e,he,-⟩ := mem_filterMap.mp hpe
      obtain ⟨he,hk⟩ := mem_filter.mp he
      have ho := h.forwardersOwned e he
      rw [h.normalized (e.1,e.2.1) (mem_append.mpr ho)] at hk
      exact ⟨e.1,e.2.1,(of_decide_eq_true hk).symm,ho⟩
  · obtain ⟨scope,hr⟩ := (h.ingress tld ip).mp hc
    exact ⟨scope,h.listenersOwned _ hr,hr⟩

/-- The runs in which no two calls overlap and each call is proper when it is made. -/
abbrev Orderly (fmt : ScopeFormats) := SerialRun (scopeStore fmt) (Set.range (Call.program fmt))
  fun s p => ∃ call : Call,p=call.program fmt ∧ call.Proper s fmt

/-- After a start, as long as no two calls overlap, no scope with a listener is deleted and peers are given once
each to TLDs of the scope: each TLD has at most one owner, and whenever no call is running the caches are what a
restart would load. -/
theorem tlds_coherent (hfmt : fmt.Lawful) (hstart : Tables (s.restart fmt) fmt)
    {P : Pool ScopeStore StoreOp StoreRes Outcome} (hrun : Orderly fmt ⟨s.restart fmt,[]⟩ P) :
    OneOwner P.state ∧ (P.tasks=[] → Coherent P.state fmt) := by
  have hs : Settled (s.restart fmt) fmt := ⟨hstart,fun _ _ => loadOwners_eq_some_iff hstart,fun _ => rfl,
    fun _ _ => loadIngress_eq_some_iff hfmt.parseIp_formatIp hstart⟩
  obtain ⟨ho,hi⟩ := hrun.restored (show ∀ s,Settled s fmt → OneOwner s from fun _ h => h.oneOwner)
    (fun s p h _ ⟨call,hp,hpr⟩ => hp ▸ h.call hfmt hpr) hs
  exact ⟨ho,fun ht => (hi ht).coherent hfmt⟩

theorem orderly_call (call : Call) (hp : call.Proper s fmt)
    (h : Permits (scopeStore fmt) (fun _ _ => True) (call.program fmt) s) :
    Orderly fmt ⟨s,[]⟩ ⟨((scopeStore fmt).runAlone (call.program fmt) s).2,[]⟩ :=
  serialRun_runAlone ⟨call,rfl⟩ ⟨call,rfl,hp⟩ h

theorem tables_empty : Tables (emptyStore.restart plainFormats) plainFormats := by
  constructor <;> simp [OneOwner,Owns,emptyStore,ScopeStore.restart]

/-- A scope gets a TLD with a listener and a peer; another scope comes and goes. -/
theorem tlds_coherent_lab : ∃ P : Pool ScopeStore StoreOp StoreRes Outcome,
    Orderly plainFormats ⟨emptyStore.restart plainFormats,[]⟩ P ∧ P.tasks=[] ∧ Owns P.state "lab" "dev." ∧
      P.state.tldIngress "dev."=some (.v4 1) ∧ OneOwner P.state ∧ Coherent P.state plainFormats := by
  have hr : Orderly plainFormats ⟨emptyStore.restart plainFormats,[]⟩ ⟨_,[]⟩ :=
    (orderly_call (.createNetworkScope "lab" "lab") trivial (by decide)).trans <|
      (orderly_call (.addScopeTld "lab" "dev") trivial (by decide)).trans <|
      (orderly_call (.setTldListener "lab" "dev" (.v4 1)) trivial (by decide)).trans <|
      (orderly_call (.setScopeTldForwarders "lab" "dev" [['|']]) ⟨by decide,by decide,fun _ => by decide⟩
        (by decide)).trans <|
      (orderly_call (.createNetworkScope "new" "new") trivial (by decide)).trans <|
      orderly_call (.deleteNetworkScope "new") ⟨by decide,by decide⟩ (by decide)
  have hc := tlds_coherent plainFormats_lawful tables_empty hr
  exact ⟨_,hr,rfl,by decide,by decide,hc.1,hc.2 rfl⟩

/-- Two calls find a TLD without an owner, and both take it. The address that was listened at for a scope stays in
the cache when the scope is deleted, and the next owner of the TLD inherits it. -/
theorem tlds_incoherent :
    (∃ P : Pool ScopeStore StoreOp StoreRes Outcome,
      Run (scopeStore plainFormats) (Set.range (Call.program plainFormats)) (fun _ _ => True)
        ⟨emptyStore.restart plainFormats,[]⟩ P ∧ P.tasks=[] ∧ ¬ OneOwner P.state) ∧
    ∃ P : Pool ScopeStore StoreOp StoreRes Outcome,
      Run (scopeStore plainFormats) (Set.range (Call.program plainFormats)) (fun _ _ => True)
        ⟨emptyStore.restart plainFormats,[]⟩ P ∧ P.tasks=[] ∧ Owns P.state "new".toList "lab.".toList ∧
        P.state.tldIngress "lab.".toList=some (.v4 1) ∧ ¬ Coherent P.state plainFormats := by
  constructor
  · have hpl : (play (scopeStore plainFormats) ⟨emptyStore.restart plainFormats,[]⟩
        ([.call (Call.program plainFormats (.createNetworkScope "lab".toList "lab".toList))]++replicate 5 (.step 0) ++
          [.call (Call.program plainFormats (.addScopeTld "lab".toList "dev".toList)),.step 0,.step 0,
            .call (Call.program plainFormats (.createNetworkScope "new".toList "dev".toList))] ++
              replicate 8 (.step 0))).any
        (fun P => P.tasks.isEmpty && decide (Owns P.state "lab".toList "dev.".toList) &&
          decide (Owns P.state "new".toList "dev.".toList))=true := by
      decide +kernel
    obtain ⟨P,hP,hf⟩ := (Option.any_eq_true _ _).mp hpl
    simp only [Bool.and_eq_true,List.isEmpty_iff,decide_eq_true_eq] at hf
    obtain ⟨⟨hid,hl⟩,hn⟩ := hf
    refine ⟨P,run_of_play (fun _ _ => true) (fun _ _ _ => trivial) (fun p hp => ?_) hP,hid,fun ho =>
      absurd (ho _ _ _ hl hn) (by decide)⟩
    simp at hp
    rcases hp with rfl | rfl | rfl <;> exact ⟨_,rfl⟩
  · have hpl : (play (scopeStore plainFormats) ⟨emptyStore.restart plainFormats,[]⟩
        ([.call (Call.program plainFormats (.createNetworkScope "lab".toList "lab".toList))]++replicate 5 (.step 0) ++
          [.call (Call.program plainFormats (.setTldListener "lab".toList "lab".toList (.v4 1)))] ++
            replicate 4 (.step 0) ++
          [.call (Call.program plainFormats (.deleteNetworkScope "lab".toList))]++replicate 7 (.step 0) ++
          [.call (Call.program plainFormats (.createNetworkScope "new".toList "lab".toList))] ++
            replicate 5 (.step 0))).any
        (fun P => P.tasks.isEmpty && decide (Owns P.state "new".toList "lab.".toList) &&
          decide (P.state.tldIngress "lab.".toList=some (.v4 1)) && P.state.tldListeners.isEmpty)=true := by
      decide +kernel
    obtain ⟨P,hP,hf⟩ := (Option.any_eq_true _ _).mp hpl
    simp only [Bool.and_eq_true,List.isEmpty_iff,decide_eq_true_eq] at hf
    obtain ⟨⟨⟨hid,hn⟩,hi⟩,hr⟩ := hf
    refine ⟨P,run_of_play (fun _ _ => true) (fun _ _ _ => trivial) (fun p hp => ?_) hP,hid,hn,hi,fun hc => ?_⟩
    · simp at hp
      rcases hp with rfl | rfl | rfl | rfl <;> exact ⟨_,rfl⟩
    · obtain ⟨scope,-,hro⟩ := hc.ingressOwned _ _ hi
      rw [hr] at hro
      cases hro

end RolodexDns.TldOwnership
