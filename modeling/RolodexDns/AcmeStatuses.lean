import RolodexDns.AcmeOrders

/-! Requests one after the other, with the records changing between them: once the verdict about a challenge is
in, it stays, and with it that about the authorization; and an order is certified only while all of its
authorizations are valid. Both hold as long as no challenge is answered a second time with another outcome. -/
namespace RolodexDns.AcmeStatuses
open StoredRecords RecordDatabase SharedStores RelyGuarantee CertificateRequests AcmeServer Option List
open AcmeOrders (key_of_find? mild_of_outside)

variable {lib : AcmeLibrary}

section

def decided : AcmeStatus → Bool
  | .valid | .invalid => true
  | .pending | .ready => false

variable {α : Type} (key : α → Text) (status : α → AcmeStatus)

def statusOf (rows : List α) (id : Text) : Option AcmeStatus := (rows.find? (key · = id)).map status

/-- Whatever is decided stays as it is. -/
def Settled (rows rows' : List α) : Prop :=
  ∀ id st,statusOf key status rows id=some st → decided st=true → statusOf key status rows' id=some st

variable {key status} {rows : List α} {row r : α} {id k : Text} {change : α → α}

theorem settled_refl (rows : List α) : Settled key status rows rows := fun _ _ h _ => h

theorem Settled.trans {rows₁ rows₂ rows₃ : List α} (h : Settled key status rows₁ rows₂)
    (h' : Settled key status rows₂ rows₃) :
    Settled key status rows₁ rows₃ :=
  fun id st hst hd => h' id st (h id st hst hd) hd

theorem find?_insertRow (h : rows.find? (key · = id)=some r) :
    (insertRow key rows row).2.find? (key · = id)=some r := by
  unfold insertRow
  split
  · exact h
  · rw [find?_append,h]
    rfl

theorem find?_insertRow_cases (h : (insertRow key rows row).2.find? (key · = id)=some r) :
    rows.find? (key · = id)=some r ∨ r=row ∧ key row=id := by
  unfold insertRow at h
  split at h
  · exact .inl h
  · rw [find?_append] at h
    cases hf : rows.find? (key · = id) with
    | some r' =>
      rw [hf] at h
      exact .inl h
    | none =>
      rw [hf,none_or,find?_singleton] at h
      split at h
      · rename_i hk
        cases h
        exact .inr ⟨rfl,of_decide_eq_true hk⟩
      · cases h

theorem find?_inserted (h : (insertRow key rows row).1=true) :
    rows.find? (key · = key row)=none ∧ (insertRow key rows row).2.find? (key · = key row)=some row := by
  unfold insertRow at h ⊢
  split_ifs with ha
  · rw [if_pos ha] at h
    cases h
  · have hn : rows.find? (key · = key row)=none := by
      refine find?_eq_none.mpr fun r hr hk => ha ?_
      exact any_eq_true.mpr ⟨r,hr,hk⟩
    refine ⟨hn,?_⟩
    rw [find?_append,hn]
    simp

theorem find?_updateRows (hke : ∀ r,key (change r)=key r) :
    (updateRows key id change rows).find? (key · = k)=(rows.find? (key · = k)).map fun r => if k=id then
      change r else r := by
  unfold updateRows
  induction rows with
  | nil => rfl
  | cons row rows ih =>
    have hc : key (if key row=id then change row else row)=key row := by
      split
      · exact hke row
      · rfl
    rw [map_cons,find?_cons,find?_cons,hc]
    by_cases hk : key row=k
    · simp [hk]
    · simpa [hk] using ih

theorem find?_updateRows_cases (h : (updateRows key id change rows).find? (key · = k)=some r)
    (hke : ∀ r,key (change r)=key r) :
    ∃ r',rows.find? (key · = k)=some r' ∧ (k=id ∧ r=change r' ∨ k≠id ∧ r=r') := by
  rw [find?_updateRows hke] at h
  obtain ⟨r',hf,rfl⟩ := map_eq_some_iff.mp h
  refine ⟨r',hf,?_⟩
  split_ifs with hk
  · exact .inl ⟨hk,rfl⟩
  · exact .inr ⟨hk,rfl⟩

theorem settled_insertRow : Settled key status rows (insertRow key rows row).2 := by
  intro id st hst _
  obtain ⟨r,hf,rfl⟩ := map_eq_some_iff.mp hst
  exact map_eq_some_iff.mpr ⟨r,find?_insertRow hf,rfl⟩

theorem settled_updateRows (hke : ∀ r,key (change r)=key r)
    (hs : ∀ r,rows.find? (key · = id)=some r → decided (status r)=true → status (change r)=status r) :
    Settled key status rows (updateRows key id change rows) := by
  intro k st hst hd
  obtain ⟨r,hf,rfl⟩ := map_eq_some_iff.mp hst
  unfold statusOf
  rw [find?_updateRows hke,hf,map_some,map_some]
  split_ifs with hk
  · subst hk
    rw [hs r hf hd]
  · rfl

end

section

structure Progress where
  orders : List AcmeOrder
  authorizations : List AcmeAuthorization
  challenges : List AcmeChallenge

def progress (s : AcmeStore) : Progress := ⟨s.orders,s.authorizations,s.challenges⟩

/-- What is decided stays decided the same way. -/
structure Final (p q : Progress) : Prop where
  orders : Settled AcmeOrder.id AcmeOrder.status p.orders q.orders
  authorizations : Settled AcmeAuthorization.id AcmeAuthorization.status p.authorizations q.authorizations
  challenges : Settled AcmeChallenge.id AcmeChallenge.status p.challenges q.challenges

variable (p : Progress) (id : Text)

theorem Final.refl : Final p p := ⟨settled_refl _,settled_refl _,settled_refl _⟩

theorem Final.trans {p q r : Progress} (h : Final p q) (h' : Final q r) : Final p r :=
  ⟨h.orders.trans h'.orders,h.authorizations.trans h'.authorizations,h.challenges.trans h'.challenges⟩

def Progress.holds : Bool :=
  statusOf AcmeAuthorization.id AcmeAuthorization.status p.authorizations id=some .valid

/-- The order is for these names, and all of its authorizations are valid. -/
def Progress.backs (names : List Text) : Bool :=
  (p.orders.find? (·.id=id)).any fun order => order.identifiers=names && order.authorizations.all p.holds

/-- Between requests: an authorization has one challenge, which has its verdict, and the authorizations of an order
that is not pending are valid. -/
structure Coherent (p : Progress) : Prop where
  attached : ∀ {id c},p.challenges.find? (·.id=id)=some c → ∃ a,p.authorizations.find? (·.id=c.authzId)=some a
  single : ∀ {id id' c c'},p.challenges.find? (·.id=id)=some c → p.challenges.find? (·.id=id')=some c' →
    c.authzId=c'.authzId → id=id'
  judged : ∀ {id c a},p.challenges.find? (·.id=id)=some c → p.authorizations.find? (·.id=c.authzId)=some a →
    decided a.status=true → c.status=a.status
  granted : ∀ {id o},p.orders.find? (·.id=id)=some o → o.status ≠ .pending → ∀ a∈o.authorizations,p.holds a=true

inductive AcmeEvent where
  | request (config : AcmeConfig) (request : Request)
  | around (o : AcmeOp) (h : AcmeOrders.outside o=true)

/-- What is signed is signed for the order that is finalized, with all of its authorizations valid at that moment. -/
def AcmeEvent.warranted : AcmeEvent → Progress → AcmeOp → Bool
  | .request _ (.finalize id _), p, .issueLeaf _ _ _ names => p.backs id names
  | _, _, .issueLeaf _ _ _ _ => false
  | _, _, _ => true

/-- What the programs see to before they write one of the rows, and before they sign. -/
def Due (event : AcmeEvent) : AcmeOp → Progress → Prop
  | .createOrder order, _ => order.status=.pending
  | .updateOrder id _ _, p => ∀ o,p.orders.find? (·.id=id)=some o → decided o.status=false ∧
      ∀ a∈o.authorizations,p.holds a=true
  | .createAuthorization authz, _ => authz.status=.pending
  | .updateAuthorizationStatus id st, p =>
    (∀ a,p.authorizations.find? (·.id=id)=some a → decided a.status=true → st=a.status) ∧
      ∀ cid c,p.challenges.find? (·.id=cid)=some c → c.authzId=id → c.status=st
  | .createChallenge challenge, p =>
    statusOf AcmeAuthorization.id AcmeAuthorization.status p.authorizations challenge.authzId=some .pending ∧
      ∀ id c,p.challenges.find? (·.id=id)=some c → c.authzId≠challenge.authzId
  | .updateChallengeStatus id st _, p => ∀ c,p.challenges.find? (·.id=id)=some c → decided c.status=true → st=c.status
  | .issueLeaf zone csrPem days names, p => event.warranted p (.issueLeaf zone csrPem days names)=true
  | _, _ => True

variable {s : AcmeStore} {o : AcmeOp} {event : AcmeEvent} {id : Text} {c : AcmeChallenge}

theorem final_exec (hdue : Due event o (progress s)) : Final (progress s) (progress (s.exec lib o).2) := by
  cases o with
  | createOrder order => exact ⟨settled_insertRow,settled_refl _,settled_refl _⟩
  | updateOrder id st certId =>
    refine ⟨settled_updateRows (fun _ => rfl) fun r hr hd => ?_,settled_refl _,settled_refl _⟩
    rw [(hdue r hr).1] at hd
    cases hd
  | createAuthorization authz => exact ⟨settled_refl _,settled_insertRow,settled_refl _⟩
  | updateAuthorizationStatus id st =>
    exact ⟨settled_refl _,settled_updateRows (fun _ => rfl) fun r hr hd => hdue.1 r hr hd,settled_refl _⟩
  | createChallenge challenge => exact ⟨settled_refl _,settled_refl _,settled_insertRow⟩
  | updateChallengeStatus id st at' =>
    exact ⟨settled_refl _,settled_refl _,settled_updateRows (fun _ => rfl) fun r hr hd => hdue r hr hd⟩
  | _ => exact Final.refl _

theorem holds_exec (hdue : Due event o (progress s)) (h : (progress s).holds id=true) :
    (progress (s.exec lib o).2).holds id=true :=
  decide_eq_true ((final_exec hdue).authorizations id .valid (of_decide_eq_true h) rfl)

variable (h : Coherent (progress s))
include h

theorem Coherent.granted_exec (hdue : Due event o (progress s)) {order : AcmeOrder}
    (hf : (s.exec lib o).2.orders.find? (·.id=id)=some order) (hs : order.status ≠ .pending) :
    ∀ a∈order.authorizations,(progress (s.exec lib o).2).holds a=true := by
  intro a ha
  refine holds_exec hdue ?_
  cases o with
  | createOrder created =>
    rcases find?_insertRow_cases hf with ho | ⟨rfl,-⟩
    · exact h.granted ho hs a ha
    · exact absurd hdue hs
  | updateOrder oid st certId =>
    obtain ⟨old,ho,⟨rfl,rfl⟩ | ⟨-,rfl⟩⟩ := find?_updateRows_cases hf fun _ => rfl
    · exact (hdue old ho).2 a ha
    · exact h.granted ho hs a ha
  | _ => exact h.granted hf hs a ha

theorem Coherent.attached_exec (hdue : Due event o (progress s))
    (hf : (s.exec lib o).2.challenges.find? (·.id=id)=some c) :
    ∃ a,(s.exec lib o).2.authorizations.find? (·.id=c.authzId)=some a := by
  cases o with
  | createAuthorization authz =>
    obtain ⟨a,ha⟩ := h.attached hf
    exact ⟨a,find?_insertRow ha⟩
  | updateAuthorizationStatus aid st =>
    obtain ⟨a,ha⟩ := h.attached hf
    refine ⟨if c.authzId=aid then { a with status := st } else a,(find?_updateRows ?_).trans ?_⟩
    · exact fun _ => rfl
    · exact congrArg (Option.map _) ha
  | createChallenge created =>
    rcases find?_insertRow_cases hf with ho | ⟨rfl,-⟩
    · exact h.attached ho
    · obtain ⟨a,ha,-⟩ := map_eq_some_iff.mp hdue.1
      exact ⟨a,ha⟩
  | updateChallengeStatus cid st validatedAt =>
    obtain ⟨old,ho,⟨rfl,rfl⟩ | ⟨-,rfl⟩⟩ := find?_updateRows_cases hf fun _ => rfl
    · have hat := h.attached ho
      exact hat
    · exact h.attached ho
  | _ => exact h.attached hf

omit h in
theorem challenge_exec (hf : (s.exec lib o).2.challenges.find? (·.id=id)=some c) :
    (∃ old,s.challenges.find? (·.id=id)=some old ∧ c.authzId=old.authzId) ∨ o=.createChallenge c ∧ c.id=id := by
  cases o with
  | createChallenge created =>
    rcases find?_insertRow_cases hf with ho | ⟨rfl,hid⟩
    · exact .inl ⟨c,ho,rfl⟩
    · exact .inr ⟨rfl,hid⟩
  | updateChallengeStatus cid st validatedAt =>
    obtain ⟨old,ho,⟨rfl,rfl⟩ | ⟨-,rfl⟩⟩ := find?_updateRows_cases hf fun _ => rfl
    · exact .inl ⟨old,ho,rfl⟩
    · exact .inl ⟨c,ho,rfl⟩
  | _ => exact .inl ⟨c,hf,rfl⟩

theorem Coherent.single_exec (hdue : Due event o (progress s)) {id' : Text} {c' : AcmeChallenge}
    (hc : (s.exec lib o).2.challenges.find? (·.id=id)=some c)
    (hc' : (s.exec lib o).2.challenges.find? (·.id=id')=some c') (ha : c.authzId=c'.authzId) : id=id' := by
  rcases challenge_exec hc with ⟨old,ho,hs⟩ | ⟨rfl,hid⟩
  · rcases challenge_exec hc' with ⟨old',ho',hs'⟩ | ⟨rfl,-⟩
    · exact h.single ho ho' (hs.symm.trans (ha.trans hs'))
    · exact absurd (hs.symm.trans ha) (hdue.2 id old ho)
  · rcases challenge_exec hc' with ⟨old',ho',hs'⟩ | ⟨heq,hid'⟩
    · exact absurd (hs'.symm.trans ha.symm) (hdue.2 id' old' ho')
    · cases heq
      exact hid.symm.trans hid'

theorem Coherent.judged_exec (hdue : Due event o (progress s))
    {a : AcmeAuthorization} (hc : (s.exec lib o).2.challenges.find? (·.id=id)=some c)
    (ha : (s.exec lib o).2.authorizations.find? (·.id=c.authzId)=some a) (hd : decided a.status=true) :
    c.status=a.status := by
  cases o with
  | createAuthorization authz =>
    rcases find?_insertRow_cases ha with ho | ⟨rfl,-⟩
    · exact h.judged hc ho hd
    · rw [show a.status=.pending from hdue] at hd
      cases hd
  | updateAuthorizationStatus aid st =>
    obtain ⟨old,ho,⟨hid,rfl⟩ | ⟨-,rfl⟩⟩ := find?_updateRows_cases ha fun _ => rfl
    · exact hdue.2 id c hc hid
    · exact h.judged hc ho hd
  | createChallenge created =>
    rcases find?_insertRow_cases hc with ho | ⟨rfl,-⟩
    · exact h.judged ho ha hd
    · obtain ⟨a',ha',hp⟩ := map_eq_some_iff.mp hdue.1
      cases ha.symm.trans ha'
      rw [hp] at hd
      cases hd
  | updateChallengeStatus cid st validatedAt =>
    obtain ⟨old,ho,⟨rfl,rfl⟩ | ⟨-,rfl⟩⟩ := find?_updateRows_cases hc fun _ => rfl
    · have hj : old.status=a.status := h.judged ho ha hd
      rw [← hj] at hd ⊢
      exact hdue old ho hd
    · exact h.judged ho ha hd
  | _ => exact h.judged hc ha hd

theorem Coherent.exec (hdue : Due event o (progress s)) : Coherent (progress (s.exec lib o).2) where
  attached := h.attached_exec hdue
  single := h.single_exec hdue
  judged := h.judged_exec hdue
  granted := h.granted_exec hdue

variable (lib event) in
/-- Nothing comes between the operations of a request. -/
def statusRules : Rules (acmeStore lib).exec where
  rely := Eq
  moves s t := Final (progress s) (progress t)
  inv s := Coherent (progress s)
  pre o s := Due event o (progress s)
  rely_refl _ := rfl
  rely_trans := Eq.trans
  rely_moves h := h ▸ Final.refl _
  trans := Final.trans
  keeps := Coherent.exec
  steps _ hdue := final_exec hdue

end

section
variable {config : AcmeConfig} {event : AcmeEvent} {s : AcmeStore} {α : Type} {o : AcmeOp}
  {post : α → AcmeStore → Prop} (id : Text)
  (body : Body)

theorem progress_quiet (h : quiet lib o) (s : AcmeStore) : progress (s.exec lib o).2=progress s := by
  cases o <;> first | rfl | exact h.elim

theorem due_of_mild (h : mild o) (p : Progress) : Due event o p := by
  cases o <;> first | exact trivial | exact h.elim

theorem reaches_next {f : AcmeRes o → AcmeAttempt α} (hdue : Due event o (progress s))
    (hf : (statusRules lib event).Reaches post (f ((acmeStore lib).exec s o).1) ((acmeStore lib).exec s o).2) :
    (statusRules lib event).Reaches post (AcmeAttempt.perform o >>= f) s := by
  refine reaches_perform ?_ ?_
  · rintro _ rfl _
    exact hdue
  · rintro _ rfl _ _
    exact hf

theorem reaches_return {a : α} (h : post a s) :
    (statusRules lib event).Reaches post (pure a : AcmeAttempt α) s := by
  refine reaches_pure ?_
  rintro _ rfl _
  exact h

theorem reaches_quiet {m : AcmeAttempt α} (known : Progress → Prop) (h : Quiet lib m) (hk : known (progress s)) :
    (statusRules lib event).Reaches (fun _ t => known (progress t)) m s := by
  have hr : ∀ s t,(statusRules lib event).rely s t → known (progress s) → known (progress t) := by
    rintro s t rfl hs
    exact hs
  refine (Attempt.Only.keeps h hr (fun o ho s hs => ⟨due_of_mild (mild_of_quiet o ho) _,?_⟩) hk).reaches
  have hp : progress ((acmeStore lib).exec s o).2=progress s := progress_quiet ho s
  rw [hp]
  exact hs

/-- Verifying a request spends a nonce; an account that it names is one of the accounts. -/
theorem reaches_verifyRequest (url : Text) :
    (statusRules lib event).Reaches (fun verified t => (∃ nonces,t={ s with nonces := nonces }) ∧
      ∀ account,verified.account=some account → account∈s.accounts) (verifyRequest lib body url) s := by
  refine reaches_ofExcept fun jws _ => reaches_ofExcept fun _ _ => reaches_require fun _ =>
    reaches_ofExcept fun nonce _ => ?_
  refine reaches_next trivial ?_
  refine reaches_require fun _ => ?_
  have hs (t : AcmeStore) (ht : ∃ nonces,t={ s with nonces := nonces }) : (statusRules lib event).Reaches
      (fun key t => (∃ nonces,t={ s with nonces := nonces }) ∧ ∀ account,key.2=some account → account∈s.accounts)
      (verificationKey jws) t := by
    unfold verificationKey
    split
    · refine reaches_return ?_
      exact ⟨ht,fun _ h => nomatch h⟩
    · refine reaches_next trivial ?_
      refine reaches_ofExcept fun account ha => reaches_return ?_
      refine ⟨ht,?_⟩
      rintro _ ⟨⟩
      obtain ⟨nonces,rfl⟩ := ht
      exact mem_of_find?_eq_some (okOr_eq_ok ha)
    · exact reaches_throw
  refine (hs _ ⟨_,rfl⟩).bind fun key t _ ht => ?_
  refine reaches_ofExcept fun _ _ => reaches_ofExcept fun _ _ => reaches_ofExcept fun _ _ => reaches_return ?_
  exact ht

theorem reaches_accountRequest (url missing : Text) :
    (statusRules lib event).Reaches (fun r t => (∃ nonces,t={ s with nonces := nonces }) ∧ r.2∈s.accounts)
      (accountRequest lib body url missing) s := by
  refine (reaches_verifyRequest body url).bind fun verified t _ ht => ?_
  refine reaches_ofExcept fun account ha => reaches_return ?_
  exact ⟨ht.1,ht.2 account (okOr_eq_ok ha)⟩

theorem reaches_createAuthorizations (orderId accountId : Text) (expires : Int) (names : List Text) (s : AcmeStore) :
    (statusRules lib event).Reaches (fun _ _ => True) (createAuthorizations orderId accountId expires names) s := by
  induction names generalizing s with
  | nil => exact reaches_pure fun _ _ _ => trivial
  | cons name names ih =>
    refine (reaches_quiet (fun _ => True) (quiet_randomToken 16) trivial).bind fun authzId t _ _ => ?_
    refine reaches_perform (fun _ _ _ => rfl) ?_
    rintro _ rfl ht _
    refine reaches_require fun hcr => ?_
    obtain ⟨hfe,hf⟩ := find?_inserted hcr
    -- the authorization is new, so that no challenge belongs to it yet
    let fresh (p : Progress) : Prop :=
      statusOf AcmeAuthorization.id AcmeAuthorization.status p.authorizations authzId=some .pending ∧
        ∀ id c,p.challenges.find? (·.id=id)=some c → c.authzId≠authzId
    have hfr : fresh (progress
      ((acmeStore lib).exec t (.createAuthorization ⟨authzId,orderId,accountId,name,.pending,expires⟩)).2) := by
      refine ⟨congrArg (Option.map _) hf,fun id c hc heq => ?_⟩
      obtain ⟨a,ha⟩ := ht.attached hc
      rw [heq] at ha
      cases hfe.symm.trans ha
    refine (reaches_quiet fresh (quiet_randomToken 16) hfr).bind fun challengeId u _ hu => ?_
    refine (reaches_quiet fresh (quiet_randomToken 32) hu).bind fun token v _ hv => ?_
    refine reaches_perform ?_ ?_
    · rintro _ rfl _
      exact hv
    · intro w _ _ _
      exact reaches_require fun _ => (ih _).bind fun ids _ _ _ => reaches_pure fun _ _ _ => trivial

theorem reaches_newOrderInner :
    (statusRules lib event).Reaches (fun _ _ => True) (newOrderInner lib config body) s := by
  refine (reaches_accountRequest _ _ _).bind fun ⟨payload,account⟩ t _ _ => ?_
  refine reaches_ofExcept fun identifiers _ => reaches_require fun _ => ?_
  refine (reaches_quiet (fun _ => True) (quiet_issuableNames _ _) trivial).bind fun names u _ _ => ?_
  refine reaches_step (fun _ => trivial) fun v _ _ _ => ?_
  refine (reaches_quiet (fun _ => True) (quiet_randomToken 16) trivial).bind fun orderId w _ _ => ?_
  refine (reaches_createAuthorizations orderId account.accountId _ names w).bind fun ids x _ _ => ?_
  exact reaches_perform (fun _ _ _ => rfl) fun _ _ _ _ => reaches_require fun _ => reaches_pure fun _ _ _ => trivial

theorem reaches_allValid (ids : List Text) (s : AcmeStore) :
    (statusRules lib event).Reaches (fun all t => t=s ∧ (all=true → ∀ id∈ids,(progress s).holds id=true))
      (allValid ids) s := by
  induction ids with
  | nil =>
    refine reaches_return ?_
    exact ⟨rfl,fun _ id hid => nomatch hid⟩
  | cons id ids ih =>
    refine reaches_next trivial ?_
    split_ifs with han
    · obtain ⟨authz,hf,hv⟩ := (any_eq_true _ _).mp han
      have hh : (progress s).holds id=true :=
        decide_eq_true (map_eq_some_iff.mpr ⟨authz,hf,of_decide_eq_true hv⟩)
      refine ih.mono fun all t _ ha => ⟨ha.1,fun ht => ?_⟩
      exact forall_mem_cons.mpr ⟨hh,ha.2 ht⟩
    · refine reaches_return ?_
      exact ⟨rfl,fun hfa => absurd hfa Bool.false_ne_true⟩

theorem reaches_maybeAdvanceOrder (orderId : Text) :
    (statusRules lib event).Reaches (fun _ _ => True) (maybeAdvanceOrder orderId) s := by
  refine reaches_next trivial ?_
  split
  · exact reaches_pure fun _ _ _ => trivial
  · rename_i order hf
    refine (reaches_allValid order.authorizations _).bind fun all t _ ht => ?_
    split_ifs with hr
    · refine reaches_performed ?_
      rintro _ rfl _ other ho
      rw [ht.1] at ho
      cases hf.symm.trans ho
      refine ⟨by rw [hr.2]; rfl,fun a ha => ?_⟩
      rw [ht.1]
      exact ht.2 hr.1 a ha
    · exact reaches_pure fun _ _ _ => trivial

/-- The verdict that answering the challenge would lead to now is the one that is in, if one is. -/
def Upheld (lib : AcmeLibrary) (s : AcmeStore) (id : Text) : Prop :=
  ∀ challenge authz account,s.challenges.find? (·.id=id)=some challenge →
    s.authorizations.find? (·.id=challenge.authzId)=some authz → account∈s.accounts →
      account.accountId=authz.accountId →
    decided challenge.status=true →
    (challengeMet lib challenge account (lookup lib.toLowercase s.records (challengeRecordName authz)
      (some .TXT))=true ↔
      challenge.status=.valid)

section
variable {id : Text} {challenge : AcmeChallenge} {authz : AcmeAuthorization} {st : AcmeStatus}
  {validatedAt : Option Int}

theorem due_updateChallengeStatus (hch : s.challenges.find? (·.id=id)=some challenge)
    (hst : decided challenge.status=true → st=challenge.status) :
    Due event (.updateChallengeStatus challenge.id st validatedAt) (progress s) := by
  obtain rfl := key_of_find? hch
  intro c hc hd
  cases hch.symm.trans hc
  exact hst hd

/-- The challenge of the authorization has been updated just before. -/
theorem due_updateAuthorizationStatus (hs : Coherent (progress s)) (hch : s.challenges.find? (·.id=id)=some challenge)
    (hau : s.authorizations.find? (·.id=challenge.authzId)=some authz)
    (hst : decided challenge.status=true → st=challenge.status) :
    Due event (.updateAuthorizationStatus authz.id st)
      (progress ((acmeStore lib).exec s (.updateChallengeStatus challenge.id st validatedAt)).2) := by
  obtain rfl := key_of_find? hch
  rw [show authz.id=challenge.authzId from key_of_find? hau]
  constructor
  · intro a ha hd
    cases hau.symm.trans ha
    have hj : challenge.status=authz.status := hs.judged hch hau hd
    rw [← hj] at hd ⊢
    exact hst hd
  · intro cid c hc hsa
    obtain ⟨old,ho,⟨rfl,rfl⟩ | ⟨hne,rfl⟩⟩ := find?_updateRows_cases hc fun _ => rfl
    · rfl
    · exact absurd (hs.single ho hch hsa) hne

end

theorem reaches_respondChallengeInner (hu : Upheld lib s id) :
    (statusRules lib event).Reaches (fun _ _ => True) (respondChallengeInner lib config id body) s := by
  refine (reaches_accountRequest _ _ _).bind fun ⟨_,account⟩ t _ ht => ?_
  obtain ⟨⟨nonces,rfl⟩,hac⟩ := ht
  refine reaches_next trivial ?_
  refine reaches_ofExcept fun challenge hc => reaches_next trivial ?_
  refine reaches_ofExcept fun authz ha => reaches_require fun ho => reaches_next trivial ?_
  refine reaches_require fun _ => reaches_next trivial ?_
  refine reaches_of_later ?_
  rintro _ rfl hco
  refine reaches_next trivial ?_
  have hm := hu challenge authz account (okOr_eq_ok hc) (okOr_eq_ok ha) hac ho.symm
  split
  · rename_i hv
    have hst (hd : decided challenge.status=true) : .valid=challenge.status := ((hm hd).mp hv).symm
    refine reaches_next (due_updateChallengeStatus (okOr_eq_ok hc) hst) ?_
    refine reaches_next (due_updateAuthorizationStatus hco (okOr_eq_ok hc) (okOr_eq_ok ha) hst) ?_
    exact (reaches_maybeAdvanceOrder authz.orderId).bind fun _ u _ _ =>
      reaches_quiet (fun _ => True) (quiet_showChallenge _ _) trivial
  · rename_i hi
    have hst (hd : decided challenge.status=true) : .invalid=challenge.status := by
      have hne : challenge.status ≠ .valid := fun heq => hi ((hm hd).mpr heq)
      cases hs : challenge.status with
      | invalid => rfl
      | valid => exact absurd hs hne
      | pending | ready =>
        rw [hs] at hd
        cases hd
    refine reaches_next (due_updateChallengeStatus (okOr_eq_ok hc) hst) ?_
    refine reaches_next (due_updateAuthorizationStatus hco (okOr_eq_ok hc) (okOr_eq_ok ha) hst) ?_
    exact reaches_quiet (fun _ => True) (quiet_showChallenge _ _) trivial

theorem reaches_finalizeInner :
    (statusRules lib (.request config (.finalize id body))).Reaches (fun _ _ => True)
      (finalizeInner lib config id body) s := by
  refine (reaches_accountRequest _ _ _).bind fun ⟨payload,account⟩ t _ _ => ?_
  refine reaches_of_later ?_
  rintro _ rfl hc
  refine reaches_next trivial ?_
  refine reaches_ofExcept fun order hf => reaches_require fun _ => reaches_require fun hr => ?_
  have ho : (progress t).orders.find? (·.id=id)=some order := okOr_eq_ok hf
  obtain rfl := key_of_find? ho
  have hva := hc.granted ho (by rw [hr]; exact AcmeStatus.noConfusion)
  refine reaches_next trivial ?_
  refine reaches_require fun _ => reaches_ofExcept fun csr _ => reaches_ofExcept fun csrDer _ =>
    reaches_ofExcept fun primary _ => ?_
  let same (p : Progress) : Prop := p=progress t
  refine (reaches_quiet same (quiet_issuingZones _ _) rfl).bind fun zones u _ hu => ?_
  refine reaches_perform ?_ ?_
  · rintro _ rfl _
    have hb : (progress t).backs order.id order.identifiers=true := by
      refine (any_eq_true _ _).mpr ⟨order,ho,?_⟩
      simpa using hva
    rw [← show progress u=progress t from hu] at hb
    exact hb
  rintro _ rfl _ _
  refine reaches_ofExcept fun issued _ => reaches_next trivial ?_
  refine (reaches_quiet same (quiet_publishDane _ _) ?_).bind fun _ v _ hv => ?_
  · exact hu
  refine reaches_perform ?_ fun _ _ _ _ => ?_
  · rintro _ rfl _ other hot
    rw [show progress v=progress t from hv] at hot ⊢
    cases ho.symm.trans hot
    exact ⟨by rw [hr]; rfl,hva⟩
  · exact reaches_step (fun _ => trivial) fun _ _ _ _ => reaches_ofExcept fun _ _ => reaches_pure fun _ _ _ => trivial

theorem safe_attachNonce (answer : Except AcmeError Response) (s : AcmeStore) :
    (statusRules lib event).Safe (fun _ _ => True) (attachNonce answer) s :=
  safe_of_sat (fun _ _ _ _ => trivial) (fun o ho _ _ => ⟨due_of_mild (mild_of_quiet o ho) _,trivial⟩)
    (fun _ _ => trivial) (quiet_attachNonce lib answer) trivial

end

section
variable (lib : AcmeLibrary) (s : AcmeStore) (event : AcmeEvent)

def AcmeEvent.program : AcmeEvent → AcmeProg Unit
  | .request config r => do
    let _ ← handle lib config r
    return ()
  | .around o _ => do
    let _ ← AcmeProg.perform o
    return ()

def happen : AcmeStore := ((acmeStore lib).runAlone (event.program lib) s).2

/-- No verdict is overturned: what is answered is a challenge without a verdict, or the outcome is the same again. -/
def Respected : AcmeEvent → Prop
  | .request _ (.respondChallenge id _) => Upheld lib s id
  | _ => True

def Warranted : Prop :=
  ∀ e∈(acmeStore lib).performed (event.program lib) s,event.warranted (progress e.1) e.2=true

variable {lib} {s : AcmeStore} {event : AcmeEvent}

theorem safe_program (h : Respected lib s event) :
    (statusRules lib event).Safe (fun _ _ => True) (event.program lib) s := by
  cases event with
  | request config request =>
    have hr : (statusRules lib (.request config request)).Reaches (fun _ _ => True) (respond lib config request) s := by
      cases request with
      | newAccount body => exact Attempt.Only.reaches (mild_newAccountInner body) fun _ ho s => due_of_mild ho _
      | newOrder body => exact reaches_newOrderInner body
      | respondChallenge id body => exact reaches_respondChallengeInner id body h
      | finalize id body => exact reaches_finalizeInner id body
    have hh : (statusRules lib (.request config request)).Safe (fun _ _ => True) (handle lib config request) s :=
      Rules.Safe.bind hr fun answer t _ _ => safe_attachNonce answer t
    exact hh.bind fun _ _ _ _ => safe_pure fun _ _ _ => trivial
  | around o ho =>
    exact safe_perform (fun t _ _ => due_of_mild (mild_of_outside ho) _) fun _ _ _ _ => safe_pure fun _ _ _ => trivial

theorem warranted_of_due {p : Progress} {o : AcmeOp} (h : Due event o p) : event.warranted p o=true := by
  cases o with
  | issueLeaf zone csrPem days names => exact h
  | _ =>
    cases event with
    | request config request => cases request <;> rfl
    | around o ho => rfl

/-- One event keeps what is decided, signs only what is warranted, and leaves the rows coherent. -/
theorem Coherent.next (hs : Coherent (progress s)) (h : Respected lib s event) :
    Coherent (progress (happen lib s event)) ∧ Final (progress s) (progress (happen lib s event)) ∧
      Warranted lib s event := by
  have hsa := safe_program h
  obtain ⟨hc,hf,-⟩ := hsa.runAlone hs
  exact ⟨hc,hf,fun e he => warranted_of_due (hsa.performed hs e he).2⟩

theorem final_of_mem_states {events : List AcmeEvent} {s t : AcmeStore} (hs : Coherent (progress s))
    (h : Along (happen lib) (Respected lib) s events) (ht : t∈states (happen lib) s events) :
    Final (progress s) (progress t) := by
  induction events generalizing s with
  | nil =>
    cases mem_singleton.mp ht
    exact Final.refl _
  | cons event events ih =>
    obtain ⟨hc,hf,-⟩ := hs.next h.1
    rcases mem_cons.mp ht with rfl | ht
    · exact Final.refl _
    · exact hf.trans (ih hc h.2 ht)

/-- In every sequence of events that respects the verdicts, whatever was decided stays so in all later states, and
certificates are signed only for orders whose authorizations are all valid at that moment. -/
theorem statuses_final {s : AcmeStore} (horders : s.orders=[]) (hauthz : s.authorizations=[])
    (hchallenges : s.challenges=[])
    {events : List AcmeEvent} (h : Along (happen lib) (Respected lib) s events) :
    (states (happen lib) s events).Pairwise (fun s t => Final (progress s) (progress t)) ∧
      Along (happen lib) (Warranted lib) s events := by
  have hs : Coherent (progress s) := by
    constructor <;> simp [progress,horders,hauthz,hchallenges]
  clear horders hauthz hchallenges
  induction events generalizing s with
  | nil => exact ⟨pairwise_singleton _ _,trivial⟩
  | cons event events ih =>
    obtain ⟨hc,hf,hw⟩ := hs.next h.1
    obtain ⟨hp,ha⟩ := ih h.2 hc
    refine ⟨pairwise_cons.mpr ⟨fun t ht => ?_,hp⟩,hw,ha⟩
    exact hf.trans (final_of_mem_states hc h.2 ht)

end

section

open AcmeOrders

def labLib : AcmeLibrary := labLibrary labCsr

def labStart : AcmeStore := { labIssuer with nonces := [⟨"w",0⟩,⟨"x",0⟩,⟨"y",0⟩,⟨"z",0⟩] }

def labOrdering : AcmeEvent :=
  .request labConfig (.newOrder (labBody "/new-order" "w" { identifiers := some [⟨some "dns",some "nas.lab"⟩] }))

def labAnswering (nonce : String) : AcmeEvent :=
  .request labConfig (.respondChallenge "2" (labBody "/challenge/2" nonce {}))

def labFinalizing : AcmeEvent := .request labConfig (.finalize "0" (labBody "/finalize/0" "z" { csr := some [] }))

theorem respected_lab : Along (happen labLib) (Respected labLib) labStart [labOrdering,labAnswering "x",
      labFinalizing] := by
  refine ⟨trivial,?_,trivial,trivial⟩
  intro challenge authz account hc _ _ _ hd
  have hp : statusOf AcmeChallenge.id AcmeChallenge.status (happen labLib labStart labOrdering).challenges "2" =
      some .pending := by decide +kernel
  have hs := (congrArg (Option.map AcmeChallenge.status) hc).symm.trans hp
  rw [Option.some.inj hs] at hd
  cases hd

theorem statuses_final_lab :
    (states (happen labLib) labStart [labOrdering,labAnswering "x",labFinalizing]).Pairwise
        (fun s t => Final (progress s) (progress t)) ∧
      Along (happen labLib) (Warranted labLib) labStart [labOrdering,labAnswering "x",labFinalizing] :=
  statuses_final rfl rfl rfl respected_lab

/-- The record is gone when the challenge is answered again. -/
def labRemoval : AcmeEvent := .around (.removeRecords "_acme-challenge.nas.lab." (some .TXT) []) rfl

def labReversal : List AcmeEvent := [labOrdering,labAnswering "x",labRemoval,labAnswering "y",labFinalizing]

/-- The second answer turns a valid authorization invalid, and the order is certified all the same. -/
theorem verdict_overturned :
    ¬ (states (happen labLib) labStart labReversal).Pairwise (fun s t => Final (progress s) (progress t)) ∧
      ¬ Along (happen labLib) (Warranted labLib) labStart labReversal := by
  constructor
  · rintro (_ | ⟨-,_ | ⟨-,_ | ⟨hl,-⟩⟩⟩)
    have hf := hl (happen labLib (happen labLib (happen labLib (happen labLib labStart labOrdering) (labAnswering "x"))
      labRemoval) (labAnswering "y")) (by simp [states])
    have hs := hf.authorizations "1" .valid (by decide +kernel) rfl
    revert hs
    decide +kernel
  · rintro ⟨-,-,-,-,hw,-⟩
    have ha := all_eq_true.mpr hw
    revert ha
    decide +kernel

end

end RolodexDns.AcmeStatuses
