import RolodexDns.AuthenticData
import RolodexDns.RecordDatabase

/-! Wildcards. By RFC 4592 an answer is synthesized for a name that does not exist, from the wildcard
at its closest encloser. The lookups substitute the first label, whether the name exists or not. -/
namespace RolodexDns.WildcardSynthesis
open DnsRecords ProgramTraces StoredRecords ServerOperations AuthoritativeAnswers LocalAnswers List
open RecordDatabase AuthenticData

variable {toLowercase : Text → Text}

section
variable {l : Text}

def spell (labels : List Text) : Text := labels.flatMap (· ++ ['.'])

def IsLabel (l : Text) : Prop := l≠[] ∧ '.' ∉ l

theorem spell_cons (l : Text) (labels : List Text) : spell (l::labels)=l ++ '.' :: spell labels := by
  simp [spell]

theorem IsLabel.getLast?_ne (h : IsLabel l) : l.getLast?≠some '.' :=
  fun hl => h.2 (mem_of_getLast? hl)

theorem exists_body {labels : List Text} (h : ∀ x∈l::labels,IsLabel x) :
    ∃ body,spell (l::labels)=body++['.'] ∧ body≠[] ∧ body.getLast?≠some '.' := by
  induction labels generalizing l with
  | nil =>
    have hl := h l mem_cons_self
    exact ⟨l,by simp [spell],hl.1,hl.getLast?_ne⟩
  | cons next labels ih =>
    obtain ⟨body,hb,hne,hla⟩ := ih fun x hx => h x (mem_cons_of_mem l hx)
    refine ⟨l ++ '.' :: body,by rw [spell_cons,hb]; simp,by simp,?_⟩
    rwa [getLast?_append_of_ne_nil _ (by simp),getLast?_cons_of_ne_nil hne]

/-- The wildcard has the labels of the parent; the parent of a single label has none. -/
theorem makeWildcardName_spell {parent : List Text} (h : ∀ x∈l::parent,IsLabel x) :
    makeWildcardName (spell (l::parent))=if parent=[] then none else some (spell (['*']::parent)) := by
  obtain ⟨hl,hp⟩ := forall_mem_cons.mp h
  have hs : ∀ c∈l,decide (c ≠ '.')=true := fun c hc => decide_eq_true fun hd => hl.2 (hd ▸ hc)
  cases parent with
  | nil =>
    have ht : trimEndDots (spell [l])=l := by
      rw [spell_cons]
      exact trimEndDots_concat hl.getLast?_ne
    rw [if_pos rfl,makeWildcardName,ht,dropWhile_eq_nil_iff.mpr hs]
  | cons next parent =>
    obtain ⟨body,hb,hne,hla⟩ := exists_body hp
    have ht : trimEndDots (spell (l::next::parent))=l ++ '.' :: body := by
      have hsp : spell (l::next::parent)=(l ++ '.' :: body)++['.'] := by
        rw [spell_cons,hb]
        simp
      rw [hsp,trimEndDots_concat]
      rwa [getLast?_append_of_ne_nil _ (by simp),getLast?_cons_of_ne_nil hne]
    rw [if_neg (by simp),makeWildcardName,ht,dropWhile_append_of_pos hs,dropWhile_cons_of_neg (by simp),
      spell_cons,hb]
    simp

end

/-- What is stored under a name and a type. -/
abbrev View := Text → RecordKind → List DnsRecord

namespace View
variable (v : View) (labels : List Text) (kind : Option RecordKind)

/-- The name exists: there is a record at it or beneath it. -/
def Occupied (name : Text) : Prop := ∃ owner kind,v owner kind≠[] ∧ (owner=name ∨ '.' :: name <:+ owner)

open Classical in
/-- The nearest ancestor that exists. The root always does. -/
noncomputable def encloser : List Text → List Text
  | [] => []
  | _::parent => if parent=[] ∨ v.Occupied (spell parent) then parent else encloser parent

open Classical in
/-- The RRset that RFC 4592 synthesizes an answer from: the type asked for at the wildcard of the
closest encloser, or else its CNAME. -/
noncomputable def source : Option (Text × RecordKind) :=
  if v.Occupied (spell labels) then none
  else
    let wildcard := spell (['*']::v.encloser labels)
    ((kind.toList++[RecordKind.CNAME]).find? fun k => !(v wildcard k).isEmpty).map fun k => (wildcard,k)

/-- The RRset of the wildcard that a lookup of the type falls back to. -/
def substituted (normalized : Text) (kind : RecordKind) : Option (Text × RecordKind) :=
  if !(v normalized kind).isEmpty then none
  else ((makeWildcardName normalized).filter fun wildcard => !(v wildcard kind).isEmpty).map fun wildcard =>
    (wildcard,kind)

/-- The records one label up, at the wildcard. -/
def above : List Text → RecordKind → List DnsRecord
  | _::next::parent, kind => v (spell (['*']::next::parent)) kind
  | _, _ => []

/-- A lookup of the type finds what the name has itself, or nothing. -/
def Keeps (kind : RecordKind) : Prop := v (spell labels) kind≠[] ∨ v.above labels kind=[]

def Near : Prop := labels.tail≠[] ∧ v.Occupied (spell labels.tail)

/-- There is nothing to synthesize from at the closest encloser. -/
def NothingAbove : Prop :=
  ∀ k∈kind.toList++[.CNAME],v (spell (['*']::v.encloser labels)) k=[]

end View

section
variable {v : View} {l : Text} {parent labels : List Text}

/-- What a record at the wildcard shows to exist. -/
theorem near_of_above {kind : RecordKind} (h : v.above (l::parent) kind≠[]) : v.Near (l::parent) := by
  cases parent with
  | nil => exact absurd rfl h
  | cons next parent =>
    refine ⟨cons_ne_nil next parent,_,kind,h,.inr ?_⟩
    exact ⟨['*'],rfl⟩

theorem above_of_not_near (h : ¬ v.Near (l::parent)) (kind : RecordKind) : v.above (l::parent) kind=[] := by
  by_contra hne
  exact h (near_of_above hne)

theorem eq_nil_of_not_occupied {name : Text} (h : ¬ v.Occupied name) (kind : RecordKind) : v name kind=[] := by
  by_contra hne
  exact h ⟨_,kind,hne,.inl rfl⟩

theorem source_of_occupied (h : v.Occupied (spell labels)) (kind : Option RecordKind) :
    v.source labels kind=none := if_pos h

theorem source_of_near (h : ¬ v.Occupied (spell (l::parent))) (hn : v.Near (l::parent)) (kind : Option RecordKind) :
    v.source (l::parent) kind=((kind.toList++[RecordKind.CNAME]).find? fun k => !(v.above (l::parent) k).isEmpty).map
      fun k => (spell (['*']::parent),k) := by
  obtain ⟨hp,ho⟩ := hn
  have he : v.encloser (l::parent)=parent := if_pos (.inr ho)
  rw [View.source,if_neg h,he]
  cases parent with
  | nil => exact absurd rfl hp
  | cons next parent => rfl

theorem source_eq_none_iff (h : ¬ v.Occupied (spell labels)) (kind : Option RecordKind) :
    v.source labels kind=none ↔ v.NothingAbove labels kind := by
  rw [View.source,if_neg h,Option.map_eq_none_iff,find?_eq_none]
  exact forall₂_congr fun k _ => by simp

theorem substituted_spell (h : ∀ x∈l::parent,IsLabel x) (kind : RecordKind) :
    v.substituted (spell (l::parent)) kind =
      if v (spell (l::parent)) kind=[] ∧ v.above (l::parent) kind≠[] then some (spell (['*']::parent),kind) else
        none := by
  unfold View.substituted
  rw [makeWildcardName_spell h]
  cases parent with
  | nil => simp [View.above]
  | cons next parent =>
    by_cases ho : v (spell (l::next::parent)) kind=[]
    · by_cases hw : v (spell (['*']::next::parent)) kind=[]
      · simp [ho,View.above,hw,Option.filter]
      · simp [ho,View.above,hw,Option.filter]
    · simp [ho]

theorem substituted_eq_none_iff (h : ∀ x∈l::parent,IsLabel x) {kind : RecordKind} :
    v.substituted (spell (l::parent)) kind=none ↔ v.Keeps (l::parent) kind := by
  rw [substituted_spell h]
  unfold View.Keeps
  split_ifs with hif
  · simp [hif.1,hif.2]
  · simpa [or_iff_not_imp_left] using hif

end

section
variable (toLowercase : Text → Text) (v : View) (normalized : Text)

/-- An address is taken from the target of an ANAME. -/
def usesAname (kind : RecordKind) : Bool :=
  (kind=.A || kind=.AAAA) &&
    match orWildcard (v · .ANAME) normalized with
    | [] => false
    | aname::_ => !(orWildcard (v · kind) (normalizeName toLowercase aname.value)).isEmpty

/-- The type that a global answer is looked up by; one that cannot be stored gets the alias. -/
def globalKind (kind : Option RecordKind) : RecordKind := kind.getD .CNAME

def scopedKind : Option RecordKind → RecordKind
  | none => .CNAME
  | some kind =>
    if !(orWildcard (v · kind) normalized).isEmpty then kind
    else if usesAname toLowercase v normalized kind then .ANAME
    else .CNAME

end

/-- Falling back to the wildcard of the parent is what RFC 4592 asks for: nothing is taken from it for
a name that exists, what is taken is what it should be, and nothing higher up is missed. -/
structure Fits (v : View) (labels : List Text) (kind : Option RecordKind) (lookedUp : RecordKind) (right : Prop) :
    Prop where
  existing : v.Occupied (spell labels) → v.Keeps labels lookedUp
  near : ¬ v.Occupied (spell labels) → v.Near labels → right
  far : ¬ v.Occupied (spell labels) → ¬ v.Near labels → v.NothingAbove labels kind

section
variable {v : View} {l : Text} {parent : List Text} {kind : Option RecordKind}

variable (h : ∀ x∈l::parent,IsLabel x)
include h

theorem substituted_eq_source_iff {lookedUp : RecordKind} {right : Prop}
    (hr : ¬ v.Occupied (spell (l::parent)) → v.Near (l::parent) →
      ((if v.above (l::parent) lookedUp=[] then none else some lookedUp) =
        (kind.toList++[RecordKind.CNAME]).find? (fun k => !(v.above (l::parent) k).isEmpty) ↔ right)) :
    v.substituted (spell (l::parent)) lookedUp=v.source (l::parent) kind ↔ Fits v (l::parent) kind lookedUp right := by
  by_cases ho : v.Occupied (spell (l::parent))
  · rw [source_of_occupied ho,substituted_eq_none_iff h]
    exact ⟨fun hk => ⟨fun _ => hk,fun hn => absurd ho hn,fun hn => absurd ho hn⟩,fun hf => hf.existing ho⟩
  · by_cases hne : v.Near (l::parent)
    · have hw : v.substituted (spell (l::parent)) lookedUp =
          (if v.above (l::parent) lookedUp=[] then none else some lookedUp).map fun k => (spell (['*']::parent),k) := by
        rw [substituted_spell h]
        by_cases ha : v.above (l::parent) lookedUp=[] <;> simp [ha,eq_nil_of_not_occupied ho]
      have hi : Function.Injective fun k : RecordKind => (spell (['*']::parent),k) := fun _ _ heq => (Prod.mk.inj heq).2
      rw [hw,source_of_near ho hne,(Option.map_injective hi).eq_iff,hr ho hne]
      exact ⟨fun hy => ⟨fun hy => absurd hy ho,fun _ _ => hy,fun _ hn => absurd hne hn⟩,fun hf => hf.near ho hne⟩
    · rw [(substituted_eq_none_iff h).mpr (.inr (above_of_not_near hne _)),eq_comm,source_eq_none_iff ho]
      exact ⟨fun hfa => ⟨fun hy => absurd hy ho,fun _ hy => absurd hy hne,fun _ _ => hfa⟩,
        fun hf => hf.far ho hne⟩

/-- The wildcard has the type if it has an alias. -/
def PlainWildcard (v : View) (labels : List Text) (kind : Option RecordKind) : Prop :=
  ∀ k,kind=some k → v.above labels k≠[] ∨ v.above labels .CNAME=[]

/-- The wildcard has the type, or its ANAME is not used. -/
def UnaliasedWildcard (toLowercase : Text → Text) (v : View) (labels : List Text) (kind : Option RecordKind) : Prop :=
  ∀ k,kind=some k → v.above labels k≠[] ∨ usesAname toLowercase v (spell labels) k=false

theorem globalSource_iff :
    v.substituted (spell (l::parent)) (globalKind kind)=v.source (l::parent) kind ↔
      Fits v (l::parent) kind (globalKind kind) (PlainWildcard v (l::parent) kind) := by
  refine substituted_eq_source_iff h fun _ _ => ?_
  cases kind with
  | none => by_cases hc : v.above (l::parent) .CNAME=[] <;> simp [globalKind,hc,PlainWildcard]
  | some k =>
    by_cases ha : v.above (l::parent) k=[]
    · by_cases hc : v.above (l::parent) .CNAME=[] <;> simp [globalKind,ha,hc,PlainWildcard]
    · simp [globalKind,ha,PlainWildcard]

theorem orWildcard_of_not_occupied (ho : ¬ v.Occupied (spell (l::parent)))
    (k : RecordKind) : orWildcard (v · k) (spell (l::parent))=renamed (spell (l::parent)) (v.above (l::parent) k) := by
  unfold orWildcard
  dsimp only
  rw [eq_nil_of_not_occupied ho,makeWildcardName_spell h]
  cases parent with
  | nil | cons next parent => rfl

theorem scopedSource_iff :
    v.substituted (spell (l::parent)) (scopedKind toLowercase v (spell (l::parent)) kind)=v.source (l::parent) kind ↔
      Fits v (l::parent) kind (scopedKind toLowercase v (spell (l::parent)) kind)
        (UnaliasedWildcard toLowercase v (l::parent) kind) := by
  refine substituted_eq_source_iff h fun ho _ => ?_
  have hl := orWildcard_of_not_occupied h ho
  cases kind with
  | none => by_cases hc : v.above (l::parent) .CNAME=[] <;> simp [scopedKind,hc,UnaliasedWildcard]
  | some k =>
    by_cases ha : v.above (l::parent) k=[]
    · cases han : usesAname toLowercase v (spell (l::parent)) k with
      | false =>
        by_cases hc : v.above (l::parent) .CNAME=[] <;>
          simp [scopedKind,hl,renamed,ha,hc,han,UnaliasedWildcard]
      | true =>
        -- An ANAME that is used is the wildcard's own, and not what should be used.
        have hf : v.above (l::parent) .ANAME≠[] := by
          intro hn
          simp [usesAname,hl,hn,renamed] at han
        by_cases hc : v.above (l::parent) .CNAME=[] <;>
          simp [scopedKind,hl,renamed,ha,hc,han,hf,UnaliasedWildcard]
    · simp [scopedKind,hl,renamed,ha,UnaliasedWildcard]

end

def rowsView (rows : List DnsRecord) : View := fun name kind => lookupExact rows name (some kind)

def scopeView (cache : ScopedCache) (scope : Text) : View :=
  fun name kind => lookupScopedExact cache scope name (some kind)

variable (cfg : ServerConfig) (db : Database)

def globalWildcard (ask : Asked) : Option (Text × RecordKind) :=
  (rowsView db.rows).substituted (normalizeName cfg.lower ask.qname) (globalKind ask.recordKind)

def scopedWildcard (scope : Text) (ask : Asked) : Option (Text × RecordKind) :=
  (scopeView db.scopedCache scope).substituted (normalizeName cfg.lower ask.qname)
    (scopedKind cfg.lower (scopeView db.scopedCache scope) (normalizeName cfg.lower ask.qname) ask.recordKind)

section
variable {rows : List DnsRecord} {cache : ScopedCache} {scope name : Text}

/-- The check of the global records is for existence. -/
theorem nameOccupied_iff :
    nameOccupied toLowercase rows name=true ↔ (rowsView rows).Occupied (normalizeName toLowercase name) := by
  simp only [nameOccupied,any_eq_true,Bool.or_eq_true,decide_eq_true_eq,isSuffixOf_iff_suffix]
  constructor
  · rintro ⟨r,hr,hn⟩
    refine ⟨r.name,r.recordType,ne_nil_of_mem (a := r) ?_,hn⟩
    exact mem_filter.mpr ⟨hr,by simp⟩
  · rintro ⟨owner,kind,hf,hn⟩
    obtain ⟨r,hr⟩ := exists_mem_of_ne_nil _ hf
    obtain ⟨hm,hk⟩ := mem_filter.mp hr
    obtain rfl : r.name=owner := of_decide_eq_true (Bool.and_eq_true_iff.mp hk).1
    exact ⟨r,hm,hn⟩

theorem beforeLastColon_append {before after : Text} (h : ':' ∉ after) :
    beforeLastColon (before ++ ':' :: after)=some before := by
  have hd : (before ++ ':' :: after).rdropWhile (· ≠ ':')=before++[':'] := by
    induction after using reverseRecOn with
    | nil => exact rdropWhile_concat_neg _ _ _ (by simp)
    | append_singleton after c ih =>
      obtain ⟨ha,hc⟩ : ':' ∉ after ∧ ':' ≠ c := by simpa using h
      rw [← cons_append,← append_assoc,rdropWhile_concat_pos _ _ _ (by simpa using hc.symm),ih ha]
  rw [beforeLastColon,hd]
  simp

/-- What exists in a scope is found there; its check may find more, in scopes of longer names. -/
theorem scopedNameOccupied_of_occupied (h : (scopeView cache scope).Occupied (normalizeName toLowercase name)) :
    scopedNameOccupied toLowercase cache scope name=true := by
  obtain ⟨owner,kind,hf,hn⟩ := h
  obtain ⟨records,hr⟩ : ∃ records,cache.lookup (scopedRecordCacheKey scope owner (some kind))=some records := by
    cases hl : cache.lookup (scopedRecordCacheKey scope owner (some kind)) with
    | none => exact absurd (by simp [scopeView,lookupScopedExact,hl]) hf
    | some records => exact ⟨records,rfl⟩
  obtain ⟨first,rest,hc,-⟩ := lookup_eq_some_iff.mp hr
  refine any_eq_true.mpr ⟨(scopedRecordCacheKey scope owner (some kind),records),by simp [hc],?_⟩
  split_ifs with hat
  · rfl
  · have hb : '.' :: normalizeName toLowercase name <:+ owner := by
      refine hn.resolve_left fun hs => hat ?_
      rw [ isPrefixOf_iff_prefix,← hs]
      exact ⟨kind.asStr,by simp [scopedRecordCacheKey]⟩
    have hd : dropPrefix? (scopedRecordCacheKey scope owner (some kind)) (scope++[':']) =
      some (owner ++ ':' :: kind.asStr) := by
      exact dropPrefix?_eq_some_iff.mpr ⟨scope++[':'],by simp [scopedRecordCacheKey],by simp⟩
    rw [hd]
    dsimp only
    rw [beforeLastColon_append kind.colon_notMem_asStr]
    simpa using hb

end

section
variable {cfg : ServerConfig} {db : Database} {ask : Asked} {scope wildcard : Text} {overrideIp : Option IpAddr}
  {kind : RecordKind}
  {reply : (o : LocalOp) → LocalRes o} (authoritative : Bool) {v : View} {normalized : Text} {kind' : RecordKind}

theorem eval_signedAnswer (kind : RecordKind) (records : List DnsRecord) :
    eval reply (signedAnswer cfg ask authoritative kind records)=some (.answer (.edns .NoError
      (records.filterMap cfg.lib.dbRecordToDnsRecord++eval reply (answerSignatures cfg.lib ask.ctx ask.qname kind))
        authoritative)) := by
  rw [signedAnswer,eval_bind]
  rfl

theorem eval_globalOfKind (hco : cfg.cacheEnabled=true → reply (.cacheLookupLocalOnly ask.qname (some kind))=[])
    {result : LookupResult} (hre : reply (.lookupWithFallbacks ask.qname kind)=some result) {records : List DnsRecord}
    (hr : (if !result.exact.isEmpty then result.exact else result.wildcard)=records) (authoritative : Bool) :
    eval reply (globalOfKind cfg ask authoritative kind) =
      if records≠[] then eval reply (signedAnswer cfg ask authoritative kind records)
      else (eval reply (globalOfKind.ofAname cfg ask authoritative kind result.aname)).or
        (if result.cname≠[] then eval reply (signedAnswer cfg ask authoritative .CNAME result.cname) else none) := by
  unfold globalOfKind
  split
  case' isTrue hc => rw [eval_read,hco hc]
  all_goals
    change eval _ (LocalProg.perform (.lookupWithFallbacks ask.qname kind) >>= _)=_
    rw [eval_read,hre]
    dsimp only
    rw [hr]
    cases records with
    | cons r records => rfl
    | nil =>
      change eval reply (firstSome _)=(eval reply (globalOfKind.ofAname cfg ask authoritative kind result.aname)).or _
      rw [eval_firstSome,findSome?_cons,findSome?_cons]
      cases eval reply (globalOfKind.ofAname cfg ask authoritative kind result.aname) with
      | some step => rfl
      | none =>
        cases result.cname with
        | nil => rfl
        | cons r cname => simp [eval_signedAnswer]

theorem eval_globalAlias : eval reply (globalAlias cfg ask authoritative) =
    if (reply (.lookup ask.qname (some .CNAME))).getD []≠[] then
      eval reply (signedAnswer cfg ask authoritative .CNAME ((reply (.lookup ask.qname (some .CNAME))).getD []))
    else none := by
  rw [globalAlias,eval_read]
  cases (reply (.lookup ask.qname (some .CNAME))).getD [] <;> rfl

/-- The addresses that a scope has for the target of the first ANAME. -/
def anameTargets (reply : (o : LocalOp) → LocalRes o) (scope : Text) (anames : List DnsRecord) (kind : RecordKind) :
    List DnsRecord :=
  match anames with
  | [] => []
  | aname::_ => if kind=.A ∨ kind=.AAAA then reply (.lookupScoped scope aname.value (some kind)) else []

/-- With nothing of its type found, an address is taken from the target of an ANAME. -/
theorem eval_scopedOfKind (hco : cfg.cacheEnabled=true →
    reply (.cacheLookup (scopedCacheName ask scope) (some kind))=[]) :
    eval reply (scopedOfKind cfg ask scope overrideIp kind) =
      if reply (.lookupScoped scope ask.qname (some kind))≠[] then some (.answer (.edns .NoError
        (buildScopedAnswers cfg.lib (reply (.lookupScoped scope ask.qname (some kind))) overrideIp) true))
      else if anameTargets reply scope (reply (.lookupScoped scope ask.qname (some .ANAME))) kind≠[] then
        some (.answer (.edns .NoError
        (renameTo cfg.lib ask.qname (buildScopedAnswers cfg.lib
          (anameTargets reply scope (reply (.lookupScoped scope ask.qname (some .ANAME))) kind) overrideIp)) true))
      else none := by
  unfold scopedOfKind
  split
  case' isTrue hc => rw [eval_read,hco hc]
  all_goals
    change eval _ (LocalProg.perform (.lookupScoped scope ask.qname (some kind)) >>= _)=_
    rw [eval_read]
    cases reply (.lookupScoped scope ask.qname (some kind)) with
    | cons r records => rfl
    | nil =>
      by_cases ha : kind=.A ∨ kind=.AAAA
      · change eval _ (if (decide (kind=.A) || decide (kind=.AAAA))=true then _ else _)=_
        rw [if_pos (by simpa using ha),eval_read]
        cases reply (.lookupScoped scope ask.qname (some .ANAME)) with
        | nil => rfl
        | cons aname rest =>
          rw [eval_read,anameTargets,if_pos ha]
          by_cases ht : (reply (.lookupScoped scope aname.value (some kind)) : List DnsRecord)=[]
          · rw [if_pos (List.isEmpty_iff.mpr ht),if_neg (by simp),if_neg (not_not_intro ht)]
            rfl
          · rw [if_neg (mt List.isEmpty_iff.mp ht),if_neg (by simp),if_pos ht]
            rfl
      · change eval _ (if (decide (kind=.A) || decide (kind=.AAAA))=true then _ else _)=_
        have hn : anameTargets reply scope (reply (.lookupScoped scope ask.qname (some .ANAME))) kind=[] := by
          unfold anameTargets
          split
          · rfl
          · exact if_neg ha
        rw [if_neg (by simpa using ha),hn]
        rfl

theorem eval_scopedCname : eval reply (scopedCname cfg ask scope) =
    if reply (.lookupScoped scope ask.qname (some .CNAME))≠[] then some (.answer (.edns .NoError
      ((reply (.lookupScoped scope ask.qname (some .CNAME))).filterMap cfg.lib.dbRecordToDnsRecord) true))
    else none := by
  rw [scopedCname,eval_read]
  cases reply (.lookupScoped scope ask.qname (some .CNAME)) <;> rfl

/-- The cache has nothing of the server's own for the question. -/
def Cold (cfg : ServerConfig) (db : Database) (ask : Asked) (name : Text) : Prop :=
  cfg.cacheEnabled=true → ∀ kind,ask.recordKind=some kind →
    db.other (.cacheLookupLocalOnly name (some kind))=[] ∧ db.other (.cacheLookup name (some kind))=[]

/-- The records at a name of which one RRset may be taken from a wildcard; all others are its own. -/
def View.recordsOf (v : View) (normalized : Text) (used : Option (Text × RecordKind)) (kind : RecordKind) :
    List DnsRecord :=
  match used with
  | none => v normalized kind
  | some (wildcard,k) => if kind=k then renamed normalized (v wildcard k) else v normalized kind

/-- The global answer made of these records: the RRset of the type, the target of an ANAME, or the alias. -/
def globalAnswerOf (cfg : ServerConfig) (db : Database) (ask : Asked) (used : Option (Text × RecordKind)) :
    Option LocalStep :=
  let records := (rowsView db.rows).recordsOf (normalizeName cfg.lower ask.qname) used
  let reply := db.read cfg.lower
  let authoritative := reply (.isAuthoritativeZone ask.qname)
  let viaCname := if records .CNAME≠[] then
    eval reply (signedAnswer cfg ask authoritative .CNAME (records .CNAME)) else none
  match ask.recordKind with
  | none => viaCname
  | some kind =>
    if records kind≠[] then eval reply (signedAnswer cfg ask authoritative kind (records kind))
    else (eval reply (globalOfKind.ofAname cfg ask authoritative kind (records .ANAME))).or viaCname

/-- The answer of a scope made of these records; without any it is left to the rest of the scope. -/
def scopedAnswerOf (cfg : ServerConfig) (db : Database) (ask : Asked) (scope : Text) (overrideIp : Option IpAddr)
    (used : Option (Text × RecordKind)) : Option LocalStep :=
  let records := (scopeView db.scopedCache scope).recordsOf (normalizeName cfg.lower ask.qname) used
  let reply := db.read cfg.lower
  let answer (answers : List Record) : Option LocalStep := some (.answer (.edns .NoError answers true))
  let typed := ask.recordKind.bind fun kind =>
    let targets := anameTargets reply scope (records .ANAME) kind
    if records kind≠[] then answer (buildScopedAnswers cfg.lib (records kind) overrideIp)
    else if targets≠[] then answer (renameTo cfg.lib ask.qname (buildScopedAnswers cfg.lib targets overrideIp))
    else none
  let viaCname := if records .CNAME≠[] then answer ((records .CNAME).filterMap cfg.lib.dbRecordToDnsRecord) else none
  (eval reply (reverseBlocklist cfg.lib ask true)).or (typed.or (viaCname.or
    (eval reply (firstSome [checkDnameScoped cfg.lib scope ask.qname,scopedTld ask scope,scopedZones cfg ask scope]))))

/-- With the RRset that a lookup falls back to, the records of the type are what it finds. -/
theorem recordsOf_substituted :
    v.recordsOf normalized (v.substituted normalized kind) kind=orWildcard (v · kind) normalized := by
  unfold View.substituted orWildcard
  dsimp only
  split_ifs with ho
  · rfl
  · cases hna : makeWildcardName normalized with
    | none => rfl
    | some wildcard =>
      cases hw : v wildcard kind with
      | nil =>
        have hn : v normalized kind=[] := by simpa using ho
        simp [Option.filter,hw,View.recordsOf,hn,renamed]
      | cons r records => simp [Option.filter,hw,View.recordsOf]

theorem recordsOf_of_ne (hne : kind'≠kind) :
    v.recordsOf normalized (v.substituted normalized kind) kind'=v normalized kind' := by
  cases hu : v.substituted normalized kind with
  | none => rfl
  | some used =>
    unfold View.substituted at hu
    split_ifs at hu
    obtain ⟨wildcard,-,rfl⟩ := Option.map_eq_some_iff.mp hu
    exact if_neg hne

/-- Where a lookup finds nothing, the name has nothing of the type itself. -/
theorem own_of_orWildcard (h : orWildcard (v · kind) normalized=[]) : v normalized kind=[] := by
  by_contra hne
  simp [orWildcard,hne] at h

theorem substituted_of_orWildcard (h : orWildcard (v · kind) normalized=[]) : v.substituted normalized kind=none := by
  have ho := own_of_orWildcard h
  unfold View.substituted
  rw [ho]
  cases hn : makeWildcardName normalized with
  | none => rfl
  | some wildcard =>
    have hw : v wildcard kind=[] := by simpa [orWildcard,ho,hn,renamed] using h
    simp [Option.filter,hw]

/-- A row is never stored under the empty name. -/
theorem lookupExact_nil (kind : Option RecordKind) : lookupExact db.rows [] kind=[] := by
  refine filter_eq_nil_iff.mpr fun r hr hm => ?_
  have hn : r.name=[] := of_decide_eq_true (Bool.and_eq_true_iff.mp hm).1
  have hl := db.normalized r hr
  rw [hn] at hl
  cases hl

/-- A global answer is made of the RRset that the lookup falls back to, or of the name's own records. -/
theorem eval_globalRecords (hco : Cold cfg db ask ask.qname) :
    eval (db.read cfg.lower) (globalRecords cfg ask)=globalAnswerOf cfg db ask (globalWildcard cfg db ask) := by
  rw [globalRecords,eval_read]
  unfold globalAnswerOf globalWildcard
  cases hk : ask.recordKind with
  | none =>
    have hr : (db.read cfg.lower (.lookup ask.qname (some .CNAME))).getD [] =
        orWildcard (rowsView db.rows · .CNAME) (normalizeName cfg.lower ask.qname) := rfl
    rw [eval_globalAlias,hr,← recordsOf_substituted]
    rfl
  | some kind =>
    have hr : (if !(lookupWithFallbacks cfg.lower db.rows ask.qname kind).exact.isEmpty then
        (lookupWithFallbacks cfg.lower db.rows ask.qname kind).exact
        else (lookupWithFallbacks cfg.lower db.rows ask.qname kind).wildcard) =
        orWildcard (rowsView db.rows · kind) (normalizeName cfg.lower ask.qname) := by
      unfold lookupWithFallbacks orWildcard
      dsimp only [rowsView]
      cases makeWildcardName (normalizeName cfg.lower ask.qname) with
      | none =>
        by_cases ho : lookupExact db.rows (normalizeName cfg.lower ask.qname) (some kind)=[]
        · simp [ho,lookupExact_nil,renamed]
        · simp [ho]
      | some wildcard => rfl
    have hm (hc : cfg.cacheEnabled=true) : db.read cfg.lower (.cacheLookupLocalOnly ask.qname (some kind))=[] :=
      (hco hc kind hk).1
    rw [eval_globalOfKind hm rfl hr]
    dsimp only [globalKind,Option.getD_some]
    rw [recordsOf_substituted]
    by_cases hf : orWildcard (rowsView db.rows · kind) (normalizeName cfg.lower ask.qname)=[]
    · -- nothing was taken from the wildcard, so ANAME and CNAME are the name's own
      rw [if_neg (not_not_intro hf),if_neg (not_not_intro hf),substituted_of_orWildcard hf]
      rfl
    · rw [if_pos hf,if_pos hf]

theorem usesAname_eq (kind : RecordKind) : usesAname cfg.lower (scopeView db.scopedCache scope)
      (normalizeName cfg.lower ask.qname) kind =
    !(anameTargets (db.read cfg.lower) scope
      (orWildcard (scopeView db.scopedCache scope · .ANAME) (normalizeName cfg.lower ask.qname)) kind).isEmpty := by
  unfold usesAname
  cases orWildcard (scopeView db.scopedCache scope · .ANAME) (normalizeName cfg.lower ask.qname) with
  | nil => simp [anameTargets]
  | cons aname rest =>
    by_cases ha : kind=.A ∨ kind=.AAAA
    · rw [anameTargets,if_pos ha,show (decide (kind=.A) || decide (kind=.AAAA))=true by simpa using ha]
      rfl
    · simp [anameTargets,ha]

/-- A scoped answer is made of the RRset that the lookups fall back to, or of the name's own records. -/
theorem eval_scopedAnswer (hco : Cold cfg db ask (scopedCacheName ask scope)) :
    eval (db.read cfg.lower) (scopedAnswer cfg ask scope overrideIp) =
      scopedAnswerOf cfg db ask scope overrideIp (scopedWildcard cfg db scope ask) := by
  have hl (kind : RecordKind) : db.read cfg.lower (.lookupScoped scope ask.qname (some kind)) =
      orWildcard (scopeView db.scopedCache scope · kind) (normalizeName cfg.lower ask.qname) := rfl
  have hr (x : Option LocalStep) (step : LocalDecision) (h : eval (db.read cfg.lower) step=x)
      (steps : List LocalDecision) : eval (db.read cfg.lower) (firstSome (step::steps)) =
        x.or (eval (db.read cfg.lower) (firstSome steps)) := by
    rw [eval_firstSome,eval_firstSome,findSome?_cons,h]
    cases x <;> rfl
  rw [scopedAnswer,hr _ _ rfl,hr _ _ rfl,hr _ _ eval_scopedCname,hl]
  unfold scopedAnswerOf scopedWildcard
  dsimp only
  congr 1
  cases hk : ask.recordKind with
  | none =>
    simp only [scopedKind,recordsOf_substituted]
    rfl
  | some kind =>
    have hs := @eval_scopedOfKind cfg ask scope overrideIp kind (db.read cfg.lower) fun hc => (hco hc kind hk).2
    rw [hl,hl] at hs
    dsimp only [Option.bind_some]
    rw [hs]
    by_cases ho : orWildcard (scopeView db.scopedCache scope · kind) (normalizeName cfg.lower ask.qname)=[]
    · have hn (used : RecordKind) : (scopeView db.scopedCache scope).recordsOf (normalizeName cfg.lower ask.qname)
          ((scopeView db.scopedCache scope).substituted (normalizeName cfg.lower ask.qname) used) kind=[] := by
        by_cases hsa : kind=used
        · rw [← hsa,recordsOf_substituted,ho]
        · rw [recordsOf_of_ne hsa,own_of_orWildcard ho]
      rw [if_neg (not_not_intro ho),hn,if_neg (not_not_intro rfl)]
      have hal := @usesAname_eq cfg db ask scope kind
      by_cases ha : anameTargets (db.read cfg.lower) scope
          (orWildcard (scopeView db.scopedCache scope · .ANAME) (normalizeName cfg.lower ask.qname)) kind=[]
      · -- the target of an own ANAME is looked up in either case
        have hu : scopedKind cfg.lower (scopeView db.scopedCache scope) (normalizeName cfg.lower ask.qname)
            (some kind)=.CNAME := by simp [scopedKind,ho,hal,ha]
        have ho : anameTargets (db.read cfg.lower) scope
            (scopeView db.scopedCache scope (normalizeName cfg.lower ask.qname) .ANAME) kind=[] := by
          by_cases hse : scopeView db.scopedCache scope (normalizeName cfg.lower ask.qname) .ANAME=[]
          · rw [hse,anameTargets]
          · rwa [show orWildcard (scopeView db.scopedCache scope · .ANAME) (normalizeName cfg.lower ask.qname) =
              scopeView db.scopedCache scope (normalizeName cfg.lower ask.qname) .ANAME by simp [orWildcard,hse]] at ha
        rw [hu,recordsOf_substituted,recordsOf_of_ne (by decide),ha,ho]
      · have hu : scopedKind cfg.lower (scopeView db.scopedCache scope) (normalizeName cfg.lower ask.qname)
            (some kind)=.ANAME := by simp [scopedKind,ho,hal,ha]
        rw [hu,recordsOf_substituted,if_pos ha]
        rfl
    · have hu : scopedKind cfg.lower (scopeView db.scopedCache scope) (normalizeName cfg.lower ask.qname)
          (some kind)=kind := by simp [scopedKind,ho]
      rw [hu,recordsOf_substituted,if_pos ho,if_pos ho]
      rfl

end

def address (name : Text) : DnsRecord := ⟨name,.A,"192.0.2.1",60,0⟩

def wildcardDb : Database where
  rows := [address "*.a."]
  scopedRows := []
  scopedCache := [("s:*.a.:A",[address "*.a."])]
  other := holdsNothing
  normalized := by decide

def askFor (qname : Text) : Asked := ⟨[],queryA,none,⟨nameA,.A,.IN⟩,qname,none,none⟩

def takenDb : Database where
  rows := [⟨"x.a.",.TXT,"t",60,0⟩,address "*.a.",address "*.b."]
  scopedRows := []
  scopedCache := [("s:x.a.:TXT",[⟨"x.a.",.TXT,"t",60,0⟩]),("s:*.a.:A",[address "*.a."])]
  other := holdsNothing
  normalized := by decide

end RolodexDns.WildcardSynthesis
