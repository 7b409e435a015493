import Mathlib.Data.List.Forall2
import RolodexDns.AnswerCaches

/-! Spellings of a name in the answer cache. The keys are in lower case, so an operation does the same for
every spelling, but for the one that drops the negatives of a name: it compares the name as it is written,
and does nothing for a name with a capital. -/
namespace RolodexDns.CacheSpellings
open ExpiringMaps StoredRecords AnswerCaches List

inductive CacheOp where
  | insert (name : Text) (kind : Option RecordKind) (records : List DnsRecord) (ttl : Nat)
  | insertLocal (name : Text) (kind : Option RecordKind) (records : List DnsRecord)
  | insertNegative (name : Text) (kind : Option RecordKind) (negative : NegativeKind) (ttl : Nat)
  | lookup (name : Text) (kind : Option RecordKind)
  | lookupLocalOnly (name : Text) (kind : Option RecordKind)
  | lookupNegative (name : Text) (kind : Option RecordKind)
  | invalidateNegative (name : Text)
  | flush

inductive Found where
  | nothing
  | records (found : List DnsRecord)
  | negative (found : Option NegativeKind)
deriving DecidableEq

namespace CacheOp

def perform (now : Nat) (c : AnswerCache) : CacheOp → Found × AnswerCache
  | insert name kind records ttl => (.nothing,c.insert now name kind records ttl)
  | insertLocal name kind records => (.nothing,c.insertLocal now name kind records)
  | insertNegative name kind negative ttl => (.nothing,c.insertNegative now name kind negative ttl)
  | lookup name kind => (.records (c.lookup now name kind).1,(c.lookup now name kind).2)
  | lookupLocalOnly name kind => (.records (c.lookupLocalOnly now name kind).1,(c.lookupLocalOnly now name kind).2)
  | lookupNegative name kind => (.negative (c.lookupNegative now name kind).1,(c.lookupNegative now name kind).2)
  | invalidateNegative name => (.nothing,c.invalidateNegative name)
  | flush => (.nothing,c.flush)

def folded : CacheOp → CacheOp
  | insert name kind records ttl => insert (name.map Char.toLower) kind records ttl
  | insertLocal name kind records => insertLocal (name.map Char.toLower) kind records
  | insertNegative name kind negative ttl => insertNegative (name.map Char.toLower) kind negative ttl
  | lookup name kind => lookup (name.map Char.toLower) kind
  | lookupLocalOnly name kind => lookupLocalOnly (name.map Char.toLower) kind
  | lookupNegative name kind => lookupNegative (name.map Char.toLower) kind
  | invalidateNegative name => invalidateNegative (name.map Char.toLower)
  | flush => flush

/-- The two are the same but for the case of their names. -/
def Respells (o o' : CacheOp) : Prop := o.folded=o'.folded

/-- The name is compared with the keys in the case they are in. -/
def Heeded : CacheOp → Prop
  | invalidateNegative name => name.map Char.toLower=name
  | _ => True

end CacheOp

def returned : AnswerCache → List (Nat × CacheOp) → List Found
  | _, [] => []
  | c, (now,o)::rest => (o.perform now c).1::returned (o.perform now c).2 rest

/-- The negatives stand under keys of the cache. -/
def Keyed (c : AnswerCache) : Prop := ∀ e∈c.negatives,∃ name kind,e.1=cacheKey name kind

section
variable {name name' : Text} {kind : Option RecordKind}

@[simp] theorem cacheKey_toLower : cacheKey (name.map Char.toLower) kind=cacheKey name kind := by
  simp [cacheKey]

theorem colon_notMem_kind : ':' ∉ kind.elim ['*'] RecordKind.asStr := by
  cases kind with
  | none => decide
  | some kind => exact kind.colon_notMem_asStr

/-- Only a name in lower case is the start of a key. -/
theorem toLower_eq_of_isPrefixOf (h : (name++[':']).isPrefixOf (cacheKey name' kind)=true) :
    name.map Char.toLower=name := by
  have hp : name++[':'] <+: name'.map Char.toLower ++ ':' :: kind.elim ['*'] RecordKind.asStr :=
    isPrefixOf_iff_prefix.mp h
  -- the colon after the name cannot be one of the text of the kind, which has none
  have hs : name.length ≤ name'.length := by
    by_contra hl
    obtain ⟨rest,hr⟩ := hp
    have hc := congrArg (·[name.length]?) hr
    simp only [append_assoc,cons_append,nil_append,getElem?_append_right (Nat.le_refl _),Nat.sub_self,
      getElem?_cons_zero] at hc
    rw [getElem?_append_right (by simp; omega),length_map,getElem?_cons,if_neg (by omega)] at hc
    exact colon_notMem_kind (mem_of_getElem? hc.symm)
  have hn : name <+: name'.map Char.toLower :=
    prefix_of_prefix_length_le ((prefix_append name [':']).trans hp) (prefix_append _ _) (by simpa using hs)
  obtain ⟨rest,hr⟩ := hn
  have hf : (name++rest).map Char.toLower=name++rest := by rw [hr,map_toLower_toLower]
  rw [map_append] at hf
  exact (append_inj hf (by simp)).1

end

section
variable {c : AnswerCache} {o o' : CacheOp} {now : Nat} {memory : ExpiringMap Text CachedEntry}

theorem Keyed.subset {c' : AnswerCache} (h : Keyed c) (hs : c'.negatives⊆c.negatives) : Keyed c' :=
  fun e he => h e (hs he)

theorem keyed_perform (h : Keyed c) : Keyed (o.perform now c).2 := by
  cases o with
  | insert name kind records ttl =>
    refine h.subset ?_
    simp only [CacheOp.perform,AnswerCache.insert]
    split <;> exact List.Subset.refl _
  | insertLocal name kind records =>
    refine h.subset ?_
    simp only [CacheOp.perform,AnswerCache.insertLocal]
    split <;> exact List.Subset.refl _
  | insertNegative name kind negative ttl =>
    simp only [CacheOp.perform,AnswerCache.insertNegative]
    split
    · exact h
    · intro e he
      rcases ExpiringMap.mem_put he with rfl | he
      · exact ⟨name,kind,rfl⟩
      · exact h e he
  | lookup name kind =>
    refine h.subset ?_
    simp only [CacheOp.perform,AnswerCache.lookup]
    split <;> exact List.Subset.refl _
  | lookupLocalOnly name kind =>
    refine h.subset ?_
    simp only [CacheOp.perform,AnswerCache.lookupLocalOnly]
    split <;> exact List.Subset.refl _
  | lookupNegative name kind => exact h.subset ExpiringMap.get_subset
  | invalidateNegative name => exact h.subset filter_sublist.subset
  | flush => exact forall_mem_nil _

/-- An operation does what it does for the name in lower case, or it drops nothing. -/
theorem perform_eq (h : Keyed c) (o : CacheOp) (now : Nat) : (o.Heeded ∧ o.perform now c=o.folded.perform now c) ∨
    (¬ o.Heeded ∧ o.perform now c=(.nothing,c)) := by
  cases o with
  | invalidateNegative name =>
    by_cases hn : name.map Char.toLower=name
    · exact .inl ⟨hn,by rw [CacheOp.folded,hn]⟩
    · refine .inr ⟨hn,?_⟩
      have hk : c.negatives.filter (fun e => !(name++[':']).isPrefixOf e.1)=c.negatives := by
        refine filter_eq_self.mpr fun e he => ?_
        obtain ⟨name',kind,hke⟩ := h e he
        rw [Bool.not_eq_true',Bool.eq_false_iff,hke]
        exact fun hp => hn (toLower_eq_of_isPrefixOf hp)
      simp only [CacheOp.perform,AnswerCache.invalidateNegative,hk]
  | _ => exact .inl ⟨trivial,by simp [CacheOp.perform,CacheOp.folded,AnswerCache.insert,AnswerCache.insertLocal,
      AnswerCache.insertNegative,AnswerCache.lookup,AnswerCache.lookupLocalOnly,AnswerCache.lookupNegative]⟩

/-- One operation: two spellings that are both heeded, or neither, do the same. -/
theorem perform_respells (h : Keyed c) (hs : o.Respells o') (hh : o.Heeded ↔ o'.Heeded) :
    o.perform now c=o'.perform now c := by
  rcases perform_eq h o now with ⟨ho,heq⟩ | ⟨ho,heq⟩
  · rcases perform_eq h o' now with ⟨-,heq'⟩ | ⟨ho',-⟩
    · rw [heq,heq',hs]
    · exact absurd (hh.mp ho) ho'
  · rcases perform_eq h o' now with ⟨ho',-⟩ | ⟨-,heq'⟩
    · exact absurd (hh.mpr ho') ho
    · rw [heq,heq']

theorem returned_respells {ops ops' : List (Nat × CacheOp)} (h : Keyed c)
    (hops : List.Forall₂ (fun e e' => e.1=e'.1 ∧ e.2.Respells e'.2 ∧ (e.2.Heeded ↔ e'.2.Heeded)) ops ops') :
    returned c ops=returned c ops' := by
  induction hops generalizing c with
  | nil => rfl
  | cons hf hr ih =>
    obtain ⟨ht,hs,hh⟩ := hf
    rw [returned,returned,ht,perform_respells h hs hh]
    exact congrArg _ (ih (keyed_perform h))

def around (name : Text) (now : Nat) (o : CacheOp) : List (Nat × CacheOp) :=
  [(now,.insertNegative name none .nxDomain 1)]++(now,o)::[(now,.lookupNegative name none)]

theorem returned_around_heeded {name : Text} (h : name.map Char.toLower=name) :
    returned ⟨memory,[]⟩ (around name now (.invalidateNegative name))=[.nothing,.nothing,.negative none] := by
  have hk : (name++[':']).isPrefixOf (cacheKey name none)=true :=
    isPrefixOf_iff_prefix.mpr ⟨['*'],by simp [cacheKey,h]⟩
  simp [around,returned,CacheOp.perform,AnswerCache.insertNegative,AnswerCache.invalidateNegative,
    AnswerCache.lookupNegative,
    ExpiringMap.put,ExpiringMap.erase,ExpiringMap.get,hk]

theorem returned_around_unheeded {name name' : Text} (h : name'.map Char.toLower≠name') :
    returned ⟨memory,[]⟩ (around name now (.invalidateNegative name')) =
      [.nothing,.nothing,.negative (some .nxDomain)] := by
  have hk : (name'++[':']).isPrefixOf (cacheKey name none)=false :=
    Bool.eq_false_iff.mpr fun hp => h (toLower_eq_of_isPrefixOf hp)
  simp [around,returned,CacheOp.perform,AnswerCache.insertNegative,AnswerCache.invalidateNegative,
    AnswerCache.lookupNegative,
    ExpiringMap.put,ExpiringMap.erase,ExpiringMap.get,hk,ResolverCaches.secs]

/-- A spelling that is heeded drops a negative that one that is not leaves. -/
theorem heeded_of_unseen (hs : o.Respells o')
    (hu : ∀ name,returned ⟨memory,[]⟩ (around name now o)=returned ⟨memory,[]⟩ (around name now o')) (ho : o.Heeded) :
    o'.Heeded := by
  cases o' with
  | invalidateNegative name' =>
    cases o with
    | invalidateNegative name =>
      by_contra hn'
      have hf := hu name
      rw [returned_around_heeded ho,returned_around_unheeded hn'] at hf
      simp at hf
    | _ => cases hs
  | _ => trivial

end

/-- Replacing an operation by another spelling of it is seen by no lookup of any sequence exactly if both
spellings are heeded or neither is; and then all operations of a sequence may be replaced at once. -/
theorem respelling_unseen_iff (memory : ExpiringMap Text CachedEntry) :
    (∀ o o' : CacheOp,o.Respells o' → ∀ now,((∀ before after : List (Nat × CacheOp),
        returned ⟨memory,[]⟩ (before++(now,o)::after)=returned ⟨memory,[]⟩ (before++(now,o')::after)) ↔
      (o.Heeded ↔ o'.Heeded))) ∧
    ∀ ops ops' : List (Nat × CacheOp),List.Forall₂ (fun e e' => e.1=e'.1 ∧ e.2.Respells e'.2 ∧
      (e.2.Heeded ↔ e'.2.Heeded)) ops ops' →
      returned ⟨memory,[]⟩ ops=returned ⟨memory,[]⟩ ops' := by
  have hk : Keyed ⟨memory,[]⟩ := forall_mem_nil _
  refine ⟨fun o o' hs now => ⟨fun hu => ?_,fun hh before after => ?_⟩,fun ops ops' hops => returned_respells hk hops⟩
  · exact ⟨heeded_of_unseen hs fun name => hu _ _,heeded_of_unseen hs.symm fun name => (hu _ _).symm⟩
  · refine returned_respells hk (rel_append (forall₂_same.mpr fun _ _ => ⟨rfl,rfl,Iff.rfl⟩) ?_)
    exact .cons ⟨rfl,hs,hh⟩ (forall₂_same.mpr fun _ _ => ⟨rfl,rfl,Iff.rfl⟩)

/-- A lookup finds what was cached under another spelling. -/
theorem respelling_unseen_lookup : CacheOp.Respells (.lookup "a." none) (.lookup "A." none) ∧
    returned ⟨[],[]⟩ [(0,.insert "A." none [⟨"a.",.TXT,[],5,0⟩] 5),(1,.lookup "a." none)] =
      returned ⟨[],[]⟩ [(0,.insert "A." none [⟨"a.",.TXT,[],5,0⟩] 5),(1,.lookup "A." none)] :=
  ⟨rfl,((respelling_unseen_iff []).1 (.lookup "a." none) (.lookup "A." none) rfl 1).mpr Iff.rfl [_] []⟩

/-- A name with a capital leaves the negative that it should drop. -/
theorem invalidate_unheeded : CacheOp.Respells (.invalidateNegative "a.") (.invalidateNegative "A.") ∧
    returned .empty (around "a." 0 (.invalidateNegative "a."))=[.nothing,.nothing,.negative none] ∧
    returned .empty (around "a." 0 (.invalidateNegative "A."))=[.nothing,.nothing,.negative (some .nxDomain)] :=
  ⟨rfl,by decide,by decide⟩

end RolodexDns.CacheSpellings
