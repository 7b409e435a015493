import RolodexDns.AcmeOrders

/-! Nonces. A nonce goes out with every answer, and a request has to name one that it alone has spent. The database
calls of all requests come in any order; what has been issued and accepted is read off the log of the calls. -/
namespace RolodexDns.AcmeNonces
open StoredRecords ProgramTrees ProgramTraces SharedStores RelyGuarantee CertificateRequests AcmeServer AcmeOrders List

variable {lib : AcmeLibrary}

abbrev Event := (o : AcmeOp) × AcmeRes o

section

/-- Rows in the order of their times, all with names of their own. -/
structure Chronological (rows : List Nonce) : Prop where
  sorted : rows.Pairwise fun a b => a.createdAt ≤ b.createdAt
  names : (rows.map (·.nonce)).Nodup

variable {rows rest : List Nonce} {nonce : Text} (k : Nat)

theorem Chronological.sublist (h : Chronological rows) (hr : rest.Sublist rows) : Chronological rest :=
  ⟨h.sorted.sublist hr,h.names.sublist (hr.map _)⟩

theorem unexpired_suffix (h : Chronological rows) (cutoff : Int) :
    rows.filter (fun n => cutoff ≤ n.createdAt) <:+ rows := by
  induction rows with
  | nil => exact suffix_rfl
  | cons n rows ih =>
    have hl := (pairwise_cons.mp h.sorted).1
    by_cases hn : cutoff ≤ n.createdAt
    · rw [filter_eq_self.mpr]
      intro m hm
      rcases mem_cons.mp hm with rfl | hm
      · exact decide_eq_true hn
      · exact decide_eq_true (hn.trans (hl m hm))
    · rw [filter_cons_of_neg (by simpa using hn)]
      exact (ih (h.sublist (sublist_cons_self n rows))).trans (suffix_cons n rows)

/-- The excess is what was issued before the newest rows. -/
theorem storeNonce_eq {n : Nonce} (h : Chronological (rows++[n])) : storeNonce n.createdAt n.nonce rows =
    ((rows++[n]).filter fun m => n.createdAt - nonceTtlSecs ≤ m.createdAt).rtake maxOutstandingNonces := by
  have hne : rows.any (·.nonce=n.nonce)=false := by
    have hn := h.names
    rw [map_append,nodup_append'] at hn
    refine any_eq_false.mpr fun m hm heq => hn.2.2 (mem_map_of_mem hm) ?_
    simpa using heq
  rw [storeNonce,hne,if_neg Bool.false_ne_true]
  generalize hk : (rows++[n]).filter (fun m => n.createdAt - nonceTtlSecs ≤ m.createdAt)=kept
  have hc : Chronological kept := hk ▸ h.sublist filter_sublist
  have hso := List.Pairwise.insertionSort_eq (pairwise_reverse.mpr hc.sorted)
  have hn := hc.names
  simp only [hso,drop_reverse,rtake]
  have hs := take_append_drop (kept.length - maxOutstandingNonces) kept
  generalize kept.take (kept.length - maxOutstandingNonces)=old,
    kept.drop (kept.length - maxOutstandingNonces)=young at hs ⊢
  rw [← hs,map_append,nodup_append'] at hn
  rw [← hs,filter_append,filter_eq_nil_iff.mpr,filter_eq_self.mpr,nil_append]
  · intro m hm
    simpa using fun m' hm' heq => hn.2.2 (mem_map_of_mem hm') (heq ▸ mem_map_of_mem hm)
  · intro m hm
    simpa using ⟨m,hm,rfl⟩

theorem rtake_suffix (rows : List Nonce) : rows.rtake k <:+ rows := drop_suffix _ _

theorem length_rtake_le (rows : List Nonce) : (rows.rtake k).length ≤ k := by
  rw [rtake,length_drop]
  omega

/-- What is cut off has as many rows after it as are kept, wherever the rows come from. -/
theorem newer_of_not_mem_rtake {m : Nonce} (hr : rows.Sublist rest) (hm : m∈rows) (hc : m∉rows.rtake k) :
    ∃ before after,rest=before++m::after ∧ k ≤ after.length := by
  have hs := take_append_drop (rows.length - k) rows
  have ho : m∈rows.take (rows.length - k) := (mem_append.mp (hs.symm ▸ hm)).resolve_right hc
  obtain ⟨front,back,hb⟩ := append_of_mem ho
  rw [← hs,hb,append_assoc,cons_append] at hr
  obtain ⟨first,last,rfl,-,hl⟩ := append_sublist_iff.mp hr
  obtain ⟨own,after,rfl,how,ha⟩ := cons_sublist_iff.mp hl
  obtain ⟨x,y,rfl⟩ := append_of_mem how
  refine ⟨first++x,y++after,by simp,?_⟩
  have hk : k ≤ (rows.drop (rows.length - k)).length := by
    have hp := length_pos_of_mem ho
    rw [length_take] at hp
    rw [length_drop]
    omega
  have hle := ha.length_le
  rw [length_append] at hle ⊢
  omega

end

section
variable (start : Int) (log : List Event)

def clockAt : List Event → Int
  | [] => start
  | ⟨.passTime seconds,_⟩::log => clockAt log+seconds
  | _::log => clockAt log

def issued : List Event → List Nonce
  | [] => []
  | ⟨.storeNonce nonce,_⟩::log => issued log++[⟨nonce,clockAt start log⟩]
  | _::log => issued log

def accepted : List Event → List Text
  | [] => []
  | ⟨.consumeNonce nonce,true⟩::log => nonce::accepted log
  | _::log => accepted log

def unspent : List Nonce := (issued start log).filter (·.nonce∉accepted log)

def Distinct (s : Logged AcmeStore AcmeOp AcmeRes) (o : AcmeOp) : Prop :=
  ∀ nonce,o=.storeNonce nonce → nonce∉(issued start s.log).map (·.nonce)

/-- Every acceptance in the log is of a nonce issued before it, and not too long before. -/
def Timely : Prop :=
  ∀ nonce before,⟨.consumeNonce nonce,true⟩::before <:+ log →
    ∃ n∈issued start before,n.nonce=nonce ∧ n.createdAt ≤ clockAt start before ∧
      clockAt start before ≤ n.createdAt+nonceTtlSecs

/-- An issued nonce is no longer good: it was spent, it expired, or enough others were issued after it. -/
def Lapsed (now : Int) (n : Nonce) : Prop :=
  n.nonce∈accepted log ∨ n.createdAt+nonceTtlSecs<now ∨
    ∃ before after,issued start log=before++n::after ∧ maxOutstandingNonces ≤ after.length

/-- What holds between calls: the table is the end of what is unspent, and only what lapsed is missing from it. -/
structure Disciplined (s : Logged AcmeStore AcmeOp AcmeRes) : Prop where
  clock : s.state.clock=clockAt start s.log
  past : ∀ n∈issued start s.log,n.createdAt ≤ s.state.clock
  chronological : Chronological (issued start s.log)
  fromIssued : accepted s.log⊆(issued start s.log).map (·.nonce)
  once : (accepted s.log).Nodup
  timely : Timely start s.log
  bounded : s.state.nonces.length ≤ maxOutstandingNonces
  newest : s.state.nonces <:+ unspent start s.log
  missing : ∀ n∈issued start s.log,n∉s.state.nonces → Lapsed start s.log s.state.clock n

end

section
variable {start : Int} {s : Logged AcmeStore AcmeOp AcmeRes}

theorem Timely.cons {log : List Event} {e : Event} (h : Timely start log)
    (he : ∀ nonce,e=⟨.consumeNonce nonce,true⟩ → ∃ n∈issued start log,n.nonce=nonce ∧ n.createdAt ≤ clockAt start log ∧
      clockAt start log ≤ n.createdAt+nonceTtlSecs) : Timely start (e::log) := by
  intro nonce before hb
  rcases suffix_cons_iff.mp hb with heq | hs
  · obtain ⟨rfl,rfl⟩ := cons.inj heq
    exact he nonce rfl
  · exact h nonce before hs

theorem Disciplined.store (h : Disciplined start s) {nonce : Text} (hne : nonce∉(issued start s.log).map (·.nonce)) :
    Disciplined start ((logged (acmeStore lib)).exec s (.storeNonce nonce)).2 := by
  obtain ⟨n,rfl,hn⟩ : ∃ n : Nonce,n.nonce=nonce ∧ n.createdAt=s.state.clock := ⟨⟨nonce,s.state.clock⟩,rfl,rfl⟩
  have hi : issued start (⟨.storeNonce n.nonce,()⟩::s.log)=issued start s.log++[n] := by
    rw [issued,← h.clock,← hn]
  have hp : ∀ m∈issued start s.log++[n],m.createdAt ≤ s.state.clock := by
    simpa [or_imp,forall_and,hn] using h.past
  have hc : Chronological (issued start s.log++[n]) := by
    refine ⟨pairwise_append.mpr ⟨h.chronological.sorted,pairwise_singleton _ _,?_⟩,?_⟩
    · simpa [hn] using h.past
    · rw [map_append]
      exact h.chronological.names.append (nodup_singleton _) (by simpa using hne)
  have hu : unspent start (⟨.storeNonce n.nonce,()⟩::s.log)=unspent start s.log++[n] := by
    rw [unspent,hi,filter_append,accepted,unspent,filter_singleton,decide_eq_true,cond_true]
    · exact fun hme => hne (h.fromIssued hme)
    · exact fun _ he => nomatch he
  have ha : s.state.nonces++[n] <:+ unspent start s.log++[n] :=
    (suffix_append_inj_of_length_eq rfl).mpr ⟨h.newest,rfl⟩
  have hr : Chronological (s.state.nonces++[n]) := hc.sublist (ha.sublist.trans (filter_sublist.append_right _))
  have hk := (unexpired_suffix hr (s.state.clock - nonceTtlSecs)).trans ha
  have hs := storeNonce_eq hr
  rw [hn] at hs
  have hme {m : Nonce} (hm : m∈s.state.nonces++[n]) (hl : ¬ m.createdAt+nonceTtlSecs<s.state.clock) :
      m∈(s.state.nonces++[n]).filter (fun m => s.state.clock - nonceTtlSecs ≤ m.createdAt) :=
    mem_filter.mpr ⟨hm,decide_eq_true (by omega)⟩
  generalize (s.state.nonces++[n]).filter (fun m => s.state.clock - nonceTtlSecs ≤ m.createdAt)=kept at hk hs hme
  refine ⟨h.clock,hi ▸ hp,hi ▸ hc,?_,h.once,h.timely.cons (fun _ he => nomatch he),?_,?_,?_⟩
  · exact fun x hx => hi ▸ map_append ▸ mem_append_left _ (h.fromIssued hx)
  · change (storeNonce s.state.clock n.nonce s.state.nonces).length ≤ maxOutstandingNonces
    rw [hs]
    exact length_rtake_le _ kept
  · change storeNonce s.state.clock n.nonce s.state.nonces <:+ unspent start (⟨.storeNonce n.nonce,()⟩::s.log)
    rw [hs,hu]
    exact (rtake_suffix _ kept).trans hk
  · intro m hm hcu
    change m∉storeNonce s.state.clock n.nonce s.state.nonces at hcu
    change m∈issued start (⟨.storeNonce n.nonce,()⟩::s.log) at hm
    change Lapsed start (⟨.storeNonce n.nonce,()⟩::s.log) s.state.clock m
    rw [hs] at hcu
    rw [Lapsed,hi]
    rw [hi] at hm
    by_cases hro : m∈s.state.nonces++[n]
    · by_cases hl : m.createdAt+nonceTtlSecs<s.state.clock
      · exact .inr (.inl hl)
      · have hsu := hk.sublist.trans (filter_sublist.append_right _)
        exact .inr (.inr (newer_of_not_mem_rtake _ hsu (hme hro hl) hcu))
    · have ho := (mem_append.mp hm).resolve_right fun hm => hro (mem_append_right _ hm)
      rcases h.missing m ho fun hm => hro (mem_append_left _ hm) with hsp | hla | ⟨before,after,heq,hlo⟩
      · exact .inl hsp
      · exact .inr (.inl hla)
      · refine .inr (.inr ⟨before,after++[n],by rw [heq]; simp,?_⟩)
        rw [length_append]
        omega

theorem Disciplined.consume (h : Disciplined start s) (nonce : Text) :
    Disciplined start ((logged (acmeStore lib)).exec s (.consumeNonce nonce)).2 := by
  let spent (n : Nonce) : Bool := n.nonce=nonce && s.state.clock - nonceTtlSecs ≤ n.createdAt
  have hee : ((logged (acmeStore lib)).exec s (.consumeNonce nonce)).2 =
      ⟨{ s.state with nonces := s.state.nonces.filter fun n => !spent n },
        ⟨.consumeNonce nonce,s.state.nonces.any spent⟩::s.log⟩ := rfl
  rw [hee]
  cases ha : s.state.nonces.any spent with
  | false =>
    have hr : s.state.nonces.filter (fun n => !spent n)=s.state.nonces :=
      filter_eq_self.mpr fun n hn => by simpa using any_eq_false.mp ha n hn
    rw [hr]
    exact ⟨h.clock,h.past,h.chronological,h.fromIssued,h.once,h.timely.cons (fun _ he => nomatch he),h.bounded,
      h.newest,h.missing⟩
  | true =>
    obtain ⟨n,hn,hs⟩ := any_eq_true.mp ha
    obtain ⟨rfl,ht⟩ : n.nonce=nonce ∧ s.state.clock - nonceTtlSecs ≤ n.createdAt := by simpa [spent] using hs
    obtain ⟨hi,hf⟩ := mem_filter.mp (h.newest.subset hn)
    have hrowNames : (s.state.nonces.map (·.nonce)).Nodup :=
      (h.chronological.sublist (h.newest.sublist.trans filter_sublist)).names
    -- no other row has the name
    have hr : s.state.nonces.filter (fun m => !spent m)=s.state.nonces.filter (·.nonce≠n.nonce) := by
      refine filter_congr fun m hm => ?_
      by_cases hna : m.nonce=n.nonce
      · obtain rfl := inj_on_of_nodup_map hrowNames hm hn hna
        simp [hs]
      · simp [spent,hna]
    rw [hr]
    have hu : unspent start (⟨.consumeNonce n.nonce,true⟩::s.log)=(unspent start s.log).filter (·.nonce≠n.nonce) := by
      simp [unspent,issued,accepted,filter_filter]
    refine ⟨h.clock,h.past,h.chronological,?_,?_,h.timely.cons ?_,?_,?_,fun m hm hc => ?_⟩
    · exact cons_subset.mpr ⟨mem_map_of_mem hi,h.fromIssued⟩
    · exact nodup_cons.mpr ⟨of_decide_eq_true hf,h.once⟩
    · rintro _ ⟨⟩
      exact ⟨n,hi,rfl,h.clock ▸ h.past n hi,by have := h.clock; omega⟩
    · exact (length_filter_le _ _).trans h.bounded
    · exact hu ▸ h.newest.filter _
    · by_cases hna : m.nonce=n.nonce
      · exact .inl (hna ▸ mem_cons_self)
      · have hg : m∉s.state.nonces := fun hm => hc (mem_filter.mpr ⟨hm,decide_eq_true hna⟩)
        exact (h.missing m hm hg).imp_left (mem_cons_of_mem _)

/-- Every other call leaves the table as it is. -/
theorem Disciplined.exec (h : Disciplined start s) {o : AcmeOp} (hd : Distinct start s o) :
    Disciplined start ((logged (acmeStore lib)).exec s o).2 := by
  cases o with
  | storeNonce nonce => exact h.store (hd nonce rfl)
  | consumeNonce nonce => exact h.consume nonce
  | passTime seconds =>
    have hl : s.state.clock ≤ s.state.clock+(seconds : Int) := Int.le_add_of_nonneg_right (Int.natCast_nonneg seconds)
    refine ⟨?_,?_,h.chronological,h.fromIssued,h.once,h.timely.cons (fun _ he => nomatch he),h.bounded,h.newest,?_⟩
    · exact congrArg (· + (seconds : Int)) h.clock
    · exact fun n hn => (h.past n hn).trans hl
    · exact fun n hn hg => (h.missing n hn hg).imp_right (.imp_left (·.trans_le hl))
  | _ =>
    exact ⟨h.clock,h.past,h.chronological,h.fromIssued,h.once,h.timely.cons (fun _ he => nomatch he),h.bounded,
      h.newest,h.missing⟩

theorem disciplined_init {s : AcmeStore} (h : s.nonces=[]) : Disciplined s.clock ⟨s,[]⟩ where
  clock := rfl
  past := forall_mem_nil _
  chronological := ⟨.nil,.nil⟩
  fromIssued := nil_subset _
  once := .nil
  timely _ _ hb := nomatch suffix_nil.mp hb
  bounded := (length_eq_zero_iff.mpr h).trans_le (Nat.zero_le _)
  newest := h ▸ nil_suffix
  missing := forall_mem_nil _

end

section
variable {log : List Event}

theorem yields_ofExcept_inv {α β : Type} {x : Except AcmeError α} {f : α → AcmeAttempt β} {b : β}
    (h : Yields (Attempt.ofExcept x >>= f).run log (.ok b)) : ∃ a,x=.ok a ∧ Yields (f a).run log (.ok b) := by
  cases x with
  | error e => cases h
  | ok a => exact ⟨a,rfl,h⟩

theorem yields_perform_inv {β : Type} {o : AcmeOp} {f : AcmeRes o → AcmeAttempt β} {b : β}
    (h : Yields (AcmeAttempt.perform o >>= f).run log (.ok b)) :
    ∃ r rest,Yields (f r).run rest (.ok b) ∧ log=⟨o,r⟩::rest := by
  cases h with
  | op r rest => exact ⟨r,_,rest,rfl⟩

/-- The key of a request is the one that it carries, or that of the account it names. -/
theorem verificationKey_inv {jws : Jws} {key : Text × Option AcmeAccount}
    (h : Yields (verificationKey jws).run log (.ok key)) :
    (jws.jwk=some key.1 ∧ key.2=none) ∨
      ∃ accountId account,⟨.getAcmeAccount accountId,some account⟩∈log ∧ key=(account.jwk,some account) := by
  unfold verificationKey at h
  split at h
  · cases h
    exact .inl ⟨‹_›,rfl⟩
  · obtain ⟨account,rest,hf,rfl⟩ := yields_perform_inv h
    obtain ⟨account,ha,hr⟩ := yields_ofExcept_inv hf
    cases hr
    exact .inr ⟨_,account,by rw [okOr_eq_ok ha]; exact mem_cons_self,rfl⟩
  · cases h

/-- A request that is verified has spent its nonce, and is signed by its key. -/
theorem verifyRequest_inv {body : Body} {url : Text} {verified : Verified}
    (h : Yields (verifyRequest lib body url).run log (.ok verified)) :
    ∃ jws nonce,body=.ok jws ∧ ⟨.consumeNonce nonce,true⟩∈log ∧ jws.nonce=some nonce ∧ jws.verify verified.jwk=.ok () ∧
      lib.jwkThumbprint verified.jwk=.ok verified.thumbprint ∧ ((jws.jwk=some verified.jwk ∧ verified.account=none) ∨
        ∃ accountId account,⟨.getAcmeAccount accountId,some account⟩∈log ∧ verified.jwk=account.jwk ∧
          verified.account=some account) := by
  obtain ⟨jws,hj,h⟩ := yields_ofExcept_inv h
  obtain ⟨_,-,h⟩ := yields_ofExcept_inv h
  obtain ⟨-,-,h⟩ := yields_ofExcept_inv h
  obtain ⟨nonce,hn,h⟩ := yields_ofExcept_inv h
  obtain ⟨fresh,spent,hs,rfl⟩ := yields_perform_inv h
  obtain ⟨_,hf,hs⟩ := yields_ofExcept_inv hs
  have hf : fresh=true := by
    by_contra hno
    rw [if_neg hno] at hf
    cases hf
  obtain ⟨key,first,rest,hk,hv,rfl⟩ := Yields.bind_inv hs
  cases key with
  | error e => cases hv
  | ok key =>
    obtain ⟨_,hve,hv⟩ := yields_ofExcept_inv hv
    obtain ⟨payload,-,hv⟩ := yields_ofExcept_inv hv
    obtain ⟨thumbprint,ht,hv⟩ := yields_ofExcept_inv hv
    cases hv
    subst hf
    refine ⟨jws,nonce,mapError_eq_ok hj,mem_cons_self,okOr_eq_ok hn,mapError_eq_ok hve,
      mapError_eq_ok ht,?_⟩
    rcases verificationKey_inv hk with hjw | ⟨accountId,account,hl,rfl⟩
    · exact .inl hjw
    · exact .inr ⟨accountId,account,mem_cons_of_mem _ (mem_append_left _ hl),rfl,rfl⟩

end

/-- In every interleaving of the calls of any programs, a nonce is accepted once at most, after it was
issued and not more than its lifetime after that. The table is always the end of what is unspent, of limited
length, and only what lapsed is missing from it. A request is verified only if its nonce is accepted. -/
theorem nonces_disciplined {α : Type} {programs : Set (AcmeProg α)} {s : AcmeStore} (hs : s.nonces=[])
    {P : Pool (Logged AcmeStore AcmeOp AcmeRes) AcmeOp AcmeRes α}
    (hrun : Run (logged (acmeStore lib)) programs (Distinct s.clock) ⟨⟨s,[]⟩,[]⟩ P) :
    (accepted P.state.log).Nodup ∧ Timely s.clock P.state.log ∧ P.state.state.nonces.length ≤ maxOutstandingNonces ∧
      P.state.state.nonces <:+ unspent s.clock P.state.log ∧
      (∀ n∈issued s.clock P.state.log,n∉P.state.state.nonces → Lapsed s.clock P.state.log P.state.state.clock n) ∧
      ∀ body url log verified,Yields (verifyRequest lib body url).run log (.ok verified) →
        ∃ jws nonce,body=.ok jws ∧ jws.nonce=some nonce ∧ ⟨.consumeNonce nonce,true⟩∈log := by
  have h : Disciplined s.clock P.state := by
    induction hrun with
    | refl => exact disciplined_init hs
    | tail _ hst ih =>
      cases hst with
      | call s tasks hp => exact ih
      | act before after next he hal => exact ih.exec hal
      | done s before after a => exact ih
  refine ⟨h.once,h.timely,h.bounded,h.newest,h.missing,fun body url log verified hv => ?_⟩
  obtain ⟨jws,nonce,hb,ha,hn,-⟩ := verifyRequest_inv hv
  exact ⟨jws,nonce,hb,hn,ha⟩

/-- A nonce is issued, and named by a request. -/
def labCalls : AcmeProg Bool := do
  AcmeProg.perform (.storeNonce "n")
  AcmeProg.perform (.consumeNonce "n")

/-- It is named again; another is issued, and named when it has expired. -/
def lateCalls : AcmeProg Bool := do
  let _ ← AcmeProg.perform (.consumeNonce "n")
  AcmeProg.perform (.storeNonce "m")
  AcmeProg.perform (.passTime 3601)
  AcmeProg.perform (.consumeNonce "m")

theorem nonces_disciplined_lab :
    ∃ P : Pool (Logged AcmeStore AcmeOp AcmeRes) AcmeOp AcmeRes Bool,
      Run (logged (acmeStore (labLibrary strayCsr))) {labCalls,lateCalls} (Distinct 0)
        ⟨⟨{ labIssuer with nonces := [] },[]⟩,[]⟩ P ∧
      P.state.log=[⟨.consumeNonce "m",false⟩,⟨.passTime 3601,()⟩,⟨.storeNonce "m",()⟩,⟨.consumeNonce "n",false⟩,
        ⟨.consumeNonce "n",true⟩,⟨.storeNonce "n",()⟩] ∧
      Timely 0 P.state.log ∧ (⟨"n",0⟩∉P.state.state.nonces → Lapsed 0 P.state.log P.state.state.clock ⟨"n",0⟩) := by
  have hf : Run (logged (acmeStore (labLibrary strayCsr))) {labCalls,lateCalls} (Distinct 0)
      ⟨⟨{ labIssuer with nonces := [] },[]⟩,[]⟩ _ :=
    run_runAlone (.inl rfl) ⟨⟨rfl,fun _ _ h => nomatch h⟩,⟨rfl,fun _ h => nomatch h⟩,trivial⟩
  have hr := hf.trans (run_runAlone (.inr rfl) ⟨⟨rfl,fun _ h => nomatch h⟩,⟨rfl,fun _ h => ?_⟩,
    ⟨rfl,fun _ h => nomatch h⟩,
    ⟨rfl,fun _ h => nomatch h⟩,trivial⟩)
  · have h := nonces_disciplined (s := { labIssuer with nonces := [] }) rfl hr
    exact ⟨_,hr,rfl,h.2.1,h.2.2.2.2.1 ⟨"n",0⟩ (by decide)⟩
  · cases h
    decide

end RolodexDns.AcmeNonces
