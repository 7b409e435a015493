import RolodexDns.ProgramTrees

/-! The trace of a program: its operations in order, each with the result it got. Nothing is assumed
of the results, so a fact about every trace holds whatever the program runs against. -/
namespace RolodexDns.ProgramTraces
open ProgramTrees List

variable {Op Op' : Type} {Res : Op → Type} {Res' : Op' → Type} {α β ε : Type}

/-- The program ends in `a` when its operations give these results. -/
inductive Yields : Prog Op Res α → List ((o : Op) × Res o) → α → Prop where
  | pure (a : α) : Yields (.pure a) [] a
  | op {o : Op} {next : Res o → Prog Op Res α} {log : List ((o : Op) × Res o)} {a : α} (r : Res o)
      (rest : Yields (next r) log a) : Yields (.op o next) (⟨o,r⟩::log) a

namespace Yields
variable {log : List ((o : Op) × Res o)} {p : Prog Op Res α} {f : α → Prog Op Res β} {o : Op}

theorem pure_inv {a b : α} (h : Yields (Pure.pure a : Prog Op Res α) log b) : log=[] ∧ b=a := by
  cases h
  exact ⟨rfl,rfl⟩

theorem bind_inv {b : β} (h : Yields (p >>= f) log b) :
    ∃ a first rest,Yields p first a ∧ Yields (f a) rest b ∧ log=first++rest := by
  induction p generalizing log with
  | pure a => exact ⟨a,[],log,.pure a,h,rfl⟩
  | op o next ih =>
    cases h with
    | op r h =>
      obtain ⟨a,first,rest,hp,hf,rfl⟩ := ih r h
      exact ⟨a,⟨o,r⟩::first,rest,.op r hp,hf,rfl⟩

theorem perform_inv {r : Res o} (h : Yields (Prog.perform o : Prog Op Res (Res o)) log r) :
    log=[⟨o,r⟩] := by
  cases h with
  | op r h =>
    cases h
    rfl

theorem perform_bind_inv {f : Res o → Prog Op Res β} {b : β}
    (h : Yields (Prog.perform o >>= f) log b) : ∃ r rest,Yields (f r) rest b ∧ log=⟨o,r⟩::rest := by
  obtain ⟨r,first,rest,hp,hf,rfl⟩ := bind_inv h
  rw [perform_inv hp]
  exact ⟨r,rest,hf,rfl⟩

protected theorem bind {rest : List ((o : Op) × Res o)} {a : α} {b : β}
    (h : Yields p log a) (hf : Yields (f a) rest b) : Yields (p >>= f) (log++rest) b := by
  induction h with
  | pure a => exact hf
  | op r _ ih => exact .op r (ih hf)

/-- Of two traces of a program neither goes on where the other has ended. -/
theorem cancel {log' rest rest' : List ((o : Op) × Res o)} {a a' : α} (h : Yields p log a)
    (h' : Yields p log' a') (heq : log++rest=log'++rest') : log=log' ∧ a=a' ∧ rest=rest' := by
  induction h generalizing log' with
  | pure a =>
    cases h'
    exact ⟨rfl,rfl,heq⟩
  | op r _ ih =>
    cases h' with
    | op r' h' =>
      obtain ⟨hh,ht⟩ := cons.inj heq
      cases hh
      obtain ⟨rfl,hv,hr⟩ := ih h' ht
      exact ⟨rfl,hv,hr⟩

end Yields

section
variable {σ : Type} {m : Routine ε σ Op Res α} {f : α → Routine ε σ Op Res β} {s s' : σ}
  {log rest : List ((o : Op) × Res o)} {a : α}
  {x : Except ε β × σ}

theorem yields_pure_iff {x : Except ε α × σ} :
    Yields ((pure a : Routine ε σ Op Res α) s) log x ↔ log=[] ∧ x=(.ok a,s) := by
  constructor
  · exact Yields.pure_inv
  · rintro ⟨rfl,rfl⟩
    exact .pure _

theorem yields_throw_iff {e : ε} {x : Except ε α × σ} :
    Yields ((throw e : Routine ε σ Op Res α) s) log x ↔ log=[] ∧ x=(.error e,s) := by
  constructor
  · exact Yields.pure_inv
  · rintro ⟨rfl,rfl⟩
    exact .pure _

theorem yields_perform_iff {o : Op} {x : Except ε (Res o) × σ} :
    Yields ((Routine.perform o : Routine ε σ Op Res (Res o)) s) log x ↔ ∃ r,log=[⟨o,r⟩] ∧ x=(.ok r,s) := by
  constructor
  · intro h
    obtain ⟨r,rest,hr,rfl⟩ := Yields.perform_bind_inv h
    obtain ⟨rfl,rfl⟩ := Yields.pure_inv hr
    exact ⟨r,rfl,rfl⟩
  · rintro ⟨r,rfl,rfl⟩
    exact .op r (.pure _)

theorem yields_attempt_iff {x : Except ε (Except ε α) × σ} :
    Yields (Routine.attempt m s) log x ↔ ∃ r s',Yields (m s) log (r,s') ∧ x=(.ok r,s') := by
  constructor
  · intro h
    obtain ⟨⟨r,s'⟩,first,rest,hm,hr,rfl⟩ := Yields.bind_inv h
    obtain ⟨rfl,rfl⟩ := Yields.pure_inv hr
    rw [append_nil]
    exact ⟨r,s',hm,rfl⟩
  · rintro ⟨r,s',hm,rfl⟩
    have ha : Yields (Routine.attempt m s) (log++[]) (.ok r,s') := Yields.bind hm (.pure _)
    rw [append_nil] at ha
    exact ha

/-- A sequence fails where its first part does; otherwise the second part goes on from there. -/
theorem yields_bind_iff :
    Yields ((m >>= f) s) log x ↔
      (∃ a s' first rest,Yields (m s) first (.ok a,s') ∧ Yields (f a s') rest x ∧ log=first++rest) ∨
      ∃ e s',Yields (m s) log (.error e,s') ∧ x=(.error e,s') := by
  constructor
  · intro h
    obtain ⟨⟨r,s'⟩,first,rest,hm,hr,rfl⟩ := Yields.bind_inv h
    cases r with
    | ok a => exact .inl ⟨a,s',first,rest,hm,hr,rfl⟩
    | error e =>
      obtain ⟨rfl,rfl⟩ := Yields.pure_inv hr
      rw [append_nil]
      exact .inr ⟨e,s',hm,rfl⟩
  · rintro (⟨a,s',first,rest,hm,hr,rfl⟩ | ⟨e,s',hm,rfl⟩)
    · exact Yields.bind hm hr
    · have ha : Yields ((m >>= f) s) (log++[]) (.error e,s') := Yields.bind hm (.pure _)
      rw [append_nil] at ha
      exact ha

theorem yields_step {o : Op} {f : Res o → Routine ε σ Op Res β} (h : Yields ((Routine.perform o >>= f) s) log x) :
    ∃ r rest,Yields (f r s) rest x ∧ log=⟨o,r⟩::rest := Yields.perform_bind_inv h

theorem yields_bind_ok {b : β} (h : Yields ((m >>= f) s) log (.ok b,s')) :
    ∃ a between first rest,Yields (m s) first (.ok a,between) ∧ Yields (f a between) rest (.ok b,s') ∧
      log=first++rest := by
  rcases yields_bind_iff.mp h with hok | ⟨e,s'',-,heq⟩
  · exact hok
  · cases heq

/-- What a sequence does after the trace of its first part is done by the second. -/
theorem yields_of_bind (hm : Yields (m s) log (.ok a,s'))
    (h : Yields ((m >>= f) s) (log++rest) x) : Yields (f a s') rest x := by
  rcases yields_bind_iff.mp h with ⟨a',s'',first,rest',hm',hr,heq⟩ | ⟨e,s'',hm',-⟩
  · obtain ⟨-,hv,rfl⟩ := hm.cancel hm' heq
    cases hv
    exact hr
  · have heq : log++rest=(log++rest)++[] := (append_nil _).symm
    obtain ⟨-,hv,-⟩ := hm.cancel hm' heq
    cases hv

end

/-- The trace and the value when every operation is answered by `reply`. -/
def answeredBy (reply : (o : Op) → Res o) : Prog Op Res α → List ((o : Op) × Res o) × α
  | .pure a => ([],a)
  | .op o next =>
    let (log,a) := answeredBy reply (next (reply o))
    (⟨o,reply o⟩::log,a)

theorem yields_answeredBy (reply : (o : Op) → Res o) (p : Prog Op Res α) :
    Yields p (answeredBy reply p).1 (answeredBy reply p).2 := by
  induction p with
  | pure a => exact .pure a
  | op o next ih => exact .op (reply o) (ih (reply o))

theorem mem_answeredBy {reply : (o : Op) → Res o} {p : Prog Op Res α} {e : (o : Op) × Res o}
    (h : e∈(answeredBy reply p).1) : e.2=reply e.1 := by
  induction p with
  | pure a => cases h
  | op o next ih =>
    rcases mem_cons.mp h with rfl | h
    · rfl
    · exact ih _ h

def eval (reply : (o : Op) → Res o) : Prog Op Res α → α
  | .pure a => a
  | .op o next => eval reply (next (reply o))

section
variable (reply : (o : Op) → Res o)

@[simp] theorem eval_pure (a : α) : eval reply (Pure.pure a : Prog Op Res α)=a := rfl

@[simp] theorem eval_perform (o : Op) : eval reply (Prog.perform o : Prog Op Res (Res o))=reply o := rfl

@[simp] theorem eval_bind (p : Prog Op Res α) (f : α → Prog Op Res β) :
    eval reply (p >>= f)=eval reply (f (eval reply p)) := by
  induction p with
  | pure a => rfl
  | op o next ih => exact ih (reply o)

variable {reply}

theorem eval_bind_ok {ε σ : Type} {m : Routine ε σ Op Res α} {f : α → Routine ε σ Op Res β} {s s' : σ} {a : α}
    (h : eval reply (m s)=(.ok a,s')) : eval reply ((m >>= f) s)=eval reply (f a s') := by
  have hb : eval reply ((m >>= f) s)=eval reply (ExceptT.bindCont f (eval reply (m s)).1 (eval reply (m s)).2) :=
    eval_bind reply (m s) _
  rw [hb,h]
  rfl

/-- A trace in which every operation is answered so ends in this value. -/
theorem Yields.eq_eval {p : Prog Op Res α} {log : List ((o : Op) × Res o)} {a : α} (h : Yields p log a)
    (hl : ∀ e∈log,e.2=reply e.1) : a=eval reply p := by
  induction h with
  | pure a => rfl
  | @op o next log a r rest ih =>
    obtain ⟨hr,hre⟩ := forall_mem_cons.mp hl
    obtain rfl : r=reply o := hr
    exact ih hre

end

/-- The same in a world of its own, which sees every operation and may answer as it likes. -/
def answeredIn {W : Type} (answer : W → (o : Op) → Res o × W) : Prog Op Res α → W → List ((o : Op) × Res o) × α
  | .pure a, _ => ([],a)
  | .op o next, w =>
    let (log,a) := answeredIn answer (next (answer w o).1) (answer w o).2
    (⟨o,(answer w o).1⟩::log,a)

section
variable {W : Type} (answer : W → (o : Op) → Res o × W)

theorem yields_answeredIn (p : Prog Op Res α) (w : W) :
    Yields p (answeredIn answer p w).1 (answeredIn answer p w).2 := by
  induction p generalizing w with
  | pure a => exact .pure a
  | op o next ih => exact .op _ (ih _ _)

theorem mem_answeredIn {p : Prog Op Res α} {w : W} {e : (o : Op) × Res o} (h : e∈(answeredIn answer p w).1) :
    ∃ w',e.2=(answer w' e.1).1 := by
  induction p generalizing w with
  | pure a => cases h
  | op o next ih =>
    rcases mem_cons.mp h with rfl | h
    · exact ⟨w,rfl⟩
    · exact ih _ h

end

/-- A program over other operations, as one over these. -/
def lift (embed : Op' → Op) (back : (o : Op') → Res (embed o) → Res' o) : Prog Op' Res' α → Prog Op Res α
  | .pure a => .pure a
  | .op o next => .op (embed o) fun r => lift embed back (next (back o r))

/-- A program over other operations, each of them carried out by a program of its own. -/
def expand (f : (o : Op') → Prog Op Res (Res' o)) : Prog Op' Res' α → Prog Op Res α
  | .pure a => .pure a
  | .op o next => (f o).bind fun r => expand f (next r)

theorem expand_bind {f : (o : Op') → Prog Op Res (Res' o)} (p : Prog Op' Res' α) (g : α → Prog Op' Res' β) :
    expand f (p >>= g)=(expand f p).bind fun a => expand f (g a) := by
  induction p with
  | pure a => rfl
  | op o next ih =>
    have hn : (fun r => expand f ((next r).bind g))=fun r => (expand f (next r)).bind fun a => expand f (g a) :=
      funext ih
    calc expand f (Prog.op o next >>= g)=(f o).bind fun r => expand f ((next r).bind g) := rfl
      _=(f o).bind fun r => (expand f (next r)).bind fun a => expand f (g a) := by rw [hn]
      _=((f o).bind fun r => expand f (next r)).bind fun a => expand f (g a) := (Prog.bind_assoc _ _ _).symm

/-- The trace of a program over other operations, event by event. -/
theorem Yields.lift_inv {embed : Op' → Op} {back : (o : Op') → Res (embed o) → Res' o} {p : Prog Op' Res' α}
    {log : List ((o : Op) × Res o)} {a : α} (h : Yields (lift embed back p) log a) :
    ∃ raw : List ((o : Op') × Res (embed o)),log=raw.map (fun e => ⟨embed e.1,e.2⟩) ∧
      Yields p (raw.map fun e => ⟨e.1,back e.1 e.2⟩) a := by
  induction p generalizing log with
  | pure a =>
    cases h
    exact ⟨[],rfl,.pure a⟩
  | op o next ih =>
    cases h with
    | op r h =>
      obtain ⟨raw,rfl,hr⟩ := ih (back o r) h
      exact ⟨⟨o,r⟩::raw,rfl,.op (back o r) hr⟩

section
variable {p : Prog Op Res α} {Q : α → Prop} {embed : Op' → Op} {back : (o : Op') → Res (embed o) → Res' o}
  {D : Op → Prop}
  {C : Contract Op Res}

theorem Yields.demands {demands : Op → Prop} {log : List ((o : Op) × Res o)} {a : α} (h : Yields p log a)
    (hp : p.Sat ⟨demands,fun _ _ => True⟩ Q) : ∀ e∈log,demands e.1 := by
  induction h with
  | pure a => simp
  | op r _ ih =>
    rintro e (_ | ⟨_,he⟩)
    · exact hp.1
    · exact ih (hp.2 r trivial) e he

/-- Where the results are as promised, the trace keeps the demands and ends as the contract says. -/
theorem Yields.sat {log : List ((o : Op) × Res o)} {a : α} (h : Yields p log a) (hp : p.Sat C Q)
    (hl : ∀ e∈log,C.promises e.1 e.2) : (∀ e∈log,C.demands e.1) ∧ Q a := by
  induction h with
  | pure a => exact ⟨forall_mem_nil _,hp⟩
  | op r _ ih =>
    obtain ⟨hf,hr⟩ := forall_mem_cons.mp hl
    obtain ⟨hd,hQ⟩ := ih (hp.2 r hf) hr
    exact ⟨forall_mem_cons.mpr ⟨hp.1,hd⟩,hQ⟩

theorem sat_lift {demands : Op → Prop}
    {p : Prog Op' Res' α} (hp : p.Sat ⟨fun o => demands (embed o),fun _ _ => True⟩ Q) :
    (lift embed back p).Sat ⟨demands,fun _ _ => True⟩ Q := by
  induction p with
  | pure a => exact hp
  | op o next ih => exact ⟨hp.1,fun r _ => ih _ (hp.2 _ trivial)⟩

theorem sat_expand {demands : Op → Prop} {demands' : Op' → Prop} {f : (o : Op') → Prog Op Res (Res' o)}
    {p : Prog Op' Res' α}
    (hp : p.Sat ⟨demands',fun _ _ => True⟩ Q) (hf : ∀ o,demands' o → (f o).Only demands) :
    (expand f p).Sat ⟨demands,fun _ _ => True⟩ Q := by
  induction p with
  | pure a => exact hp
  | op o next ih => exact (hf o hp.1).bind fun r _ => ih r (hp.2 r trivial)

def Performs (p : Prog Op Res α) (o : Op) : Prop := ∃ log a r,Yields p log a ∧ ⟨o,r⟩∈log

/-- A program performs what it performs, whatever results it gets. -/
theorem sat_performs (reply : (o : Op) → Res o) (p : Prog Op Res α) : p.Only (Performs p) := by
  induction p with
  | pure a => trivial
  | op o next ih =>
    refine ⟨⟨_,_,reply o,.op (reply o) (yields_answeredBy reply _),mem_cons_self⟩,fun r _ => ?_⟩
    refine (ih r).weaken (fun o' ho' => ?_) fun _ _ _ => trivial
    obtain ⟨log,a,r',hl,hm⟩ := ho'
    exact ⟨⟨o,r⟩::log,a,r',.op r hl,mem_cons_of_mem _ hm⟩

@[simp] theorem eval_lift (reply : (o : Op) → Res o)
    (p : Prog Op' Res' α) : eval reply (lift embed back p)=eval (fun o => back o (reply (embed o))) p := by
  induction p with
  | pure a => rfl
  | op o next ih => exact ih _

/-- A program that performs only operations whose results are fixed ends in the value they give. -/
theorem sat_eval {reply : (o : Op) → Res o} (hp : p.Sat ⟨D,fun _ _ => True⟩ Q)
    (hd : ∀ o,D o → C.demands o) (hf : ∀ o r,D o → C.promises o r → r=reply o) :
    p.Sat C fun a => a=eval reply p ∧ Q a := by
  induction p with
  | pure a => exact ⟨rfl,hp⟩
  | op o next ih =>
    refine ⟨hd o hp.1,fun r hr => ?_⟩
    obtain rfl : r=reply o := hf o r hp.1 hr
    exact ih _ (hp.2 _ trivial)

/-- Replies that agree on what the program may perform give the same value. -/
theorem eval_congr {reply reply' : (o : Op) → Res o} (hp : p.Sat ⟨D,fun _ _ => True⟩ Q)
    (h : ∀ o,D o → reply o=reply' o) : eval reply p=eval reply' p := by
  induction p with
  | pure a => rfl
  | op o next ih =>
    rw [eval,eval,h o hp.1]
    exact ih _ (hp.2 _ trivial)

theorem sat_of_forall {demands : Op → Prop} (h : ∀ o,demands o) (p : Prog Op Res α) : p.Only demands := by
  induction p with
  | pure a => trivial
  | op o next ih => exact ⟨h o,fun r _ => ih r⟩

/-- What a routine returns under one contract it returns under another, where both can be kept at once. -/
theorem exists_returned {ε σ : Type} {C C' : Contract Op Res} {m : Routine ε σ Op Res α} {s : σ} {P : α → σ → Prop}
    {R : Except ε α → σ → Prop} (h : Routine.Returns C m s P) (h' : Routine.Ends C' m s R)
    (hb : ∀ o,∃ r,C.promises o r ∧ C'.promises o r) : ∃ a s',P a s' ∧ R (.ok a) s' := by
  choose reply hr using hb
  have ht := yields_answeredBy reply (m s)
  obtain ⟨-,a,heq,hP⟩ := ht.sat h fun e he => mem_answeredBy he ▸ (hr e.1).1
  obtain ⟨-,hR⟩ := ht.sat h' fun e he => mem_answeredBy he ▸ (hr e.1).2
  rw [heq] at hR
  exact ⟨a,_,hP,hR⟩

end

section
variable {f : ε → Option β}

/-- The first entry that `f` gives a value for, and what comes after it. -/
def firstOf (f : ε → Option β) : List ε → Option (β × List ε)
  | [] => none
  | e::rest =>
    match f e with
    | some b => some (b,rest)
    | none => firstOf f rest

def Silent (f : ε → Option β) (log : List ε) : Prop := ∀ e∈log,f e=none

theorem Silent.append {first rest : List ε} (h : Silent f first) (h' : Silent f rest) : Silent f (first++rest) := by
  intro e he
  rcases mem_append.mp he with he | he
  · exact h e he
  · exact h' e he

theorem Silent.firstOf_append {first : List ε} (h : Silent f first) (rest : List ε) :
    firstOf f (first++rest)=firstOf f rest := by
  induction first with
  | nil => rfl
  | cons e first ih =>
    have he : f e=none := h e mem_cons_self
    simp only [cons_append,firstOf,he]
    exact ih fun x hx => h x (mem_cons_of_mem _ hx)

theorem Silent.firstOf_eq_none {log : List ε} (h : Silent f log) : firstOf f log=none := by
  have heq := h.firstOf_append []
  rwa [append_nil] at heq

theorem firstOf_cons {e : ε} {b : β} (h : f e=some b) (rest : List ε) : firstOf f (e::rest)=some (b,rest) := by
  simp only [firstOf,h]

theorem exists_of_firstOf {log rest : List ε} {b : β} (h : firstOf f log=some (b,rest)) : ∃ e∈log,f e=some b := by
  induction log with
  | nil => cases h
  | cons e log ih =>
    cases he : f e with
    | none =>
      simp only [firstOf,he] at h
      obtain ⟨e',he',hb⟩ := ih h
      exact ⟨e',mem_cons_of_mem _ he',hb⟩
    | some b' =>
      rw [firstOf_cons he] at h
      cases h
      exact ⟨e,mem_cons_self,he⟩

end

end RolodexDns.ProgramTraces
