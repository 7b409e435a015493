import Mathlib.Logic.Relation
import RolodexDns.ProgramTrees

/-! Programs that run side by side over one shared store; a step performs one operation of one task, so that
tasks interleave at every operation. Where calls do not overlap, what each of them restores holds whenever none
is running. -/
namespace RolodexDns.SharedStores
open ProgramTrees List

variable {σ Op : Type} {Res : Op → Type} {α : Type}

/-- When an operation can be performed, its result and what it does. -/
structure Store (σ : Type) (Op : Type) (Res : Op → Type) where
  enabled : σ → Op → Bool
  exec : σ → (o : Op) → Res o × σ

/-- A program that nothing comes between. -/
def Store.runAlone (S : Store σ Op Res) : Prog Op Res α → σ → α × σ
  | .pure a, s => (a,s)
  | .op o next, s => S.runAlone (next (S.exec s o).1) (S.exec s o).2

/-- What a program performs if nothing comes between, each operation with the state it is performed in. -/
def Store.performed (S : Store σ Op Res) : Prog Op Res α → σ → List (σ × Op)
  | .pure _, _ => []
  | .op o next, s => (s,o)::S.performed (next (S.exec s o).1) (S.exec s o).2

@[simp] theorem Store.runAlone_pure (S : Store σ Op Res) (a : α) (s : σ) :
    S.runAlone (pure a : Prog Op Res α) s=(a,s) := rfl

@[simp] theorem Store.runAlone_perform (S : Store σ Op Res) (o : Op) (f : Res o → Prog Op Res α) (s : σ) :
    S.runAlone (Prog.perform o >>= f) s=S.runAlone (f (S.exec s o).1) (S.exec s o).2 := rfl

theorem Store.runAlone_bind {β : Type} (S : Store σ Op Res) (p : Prog Op Res α) (f : α → Prog Op Res β) (s : σ) :
    S.runAlone (p >>= f) s=S.runAlone (f (S.runAlone p s).1) (S.runAlone p s).2 := by
  induction p generalizing s with
  | pure a => rfl
  | op o next ih => exact ih _ _

section

/-- The program performs these operations one after the other, whatever their results, and returns as told. -/
def Performs (post : α → Prop) : List Op → Prog Op Res α → Prop
  | [], p => ∃ a,p=.pure a ∧ post a
  | o::ops, p => ∃ next,p=.op o next ∧ ∀ r,Performs post ops (next r)

def Store.execAll (S : Store σ Op Res) (s : σ) (ops : List Op) : σ := ops.foldl (fun s o => (S.exec s o).2) s

variable {β : Type} {post : α → Prop} {post' : β → Prop} {ops ops' : List Op} {p : Prog Op Res α}
  {f : α → Prog Op Res β}

theorem performs_pure {a : α} (h : post a) : Performs post [] (pure a : Prog Op Res α) := ⟨a,rfl,h⟩

theorem performs_perform {o : Op} {g : Res o → Prog Op Res α} (h : ∀ r,Performs post ops (g r)) :
    Performs post (o::ops) (Prog.perform o >>= g) := ⟨g,rfl,h⟩

theorem Performs.bind (h : Performs post ops p) (hf : ∀ a,post a → Performs post' ops' (f a)) :
    Performs post' (ops++ops') (p >>= f) := by
  induction ops generalizing p with
  | nil =>
    obtain ⟨a,rfl,ha⟩ := h
    exact hf a ha
  | cons o ops ih =>
    obtain ⟨next,rfl,hn⟩ := h
    exact ⟨_,rfl,fun r => ih (hn r)⟩

theorem Performs.runAlone (h : Performs post ops p) (S : Store σ Op Res) (s : σ) :
    post (S.runAlone p s).1 ∧ (S.runAlone p s).2=S.execAll s ops := by
  induction ops generalizing p s with
  | nil =>
    obtain ⟨a,rfl,ha⟩ := h
    exact ⟨ha,rfl⟩
  | cons o ops ih =>
    obtain ⟨next,rfl,hn⟩ := h
    exact ih (hn _) _

end

section
variable {C : Type} (apply : σ → C → σ)

def states (s : σ) : List C → List σ
  | [] => [s]
  | call::calls => s::states (apply s call) calls

def Along (safe : σ → C → Prop) (s : σ) : List C → Prop
  | [] => True
  | call::calls => safe s call ∧ Along safe (apply s call) calls

variable {apply} {good : σ → Prop} {safe : σ → C → Prop} {s : σ}

theorem mem_states_self (calls : List C) : s∈states apply s calls := by
  cases calls <;> exact mem_cons_self

/-- Where a call keeps a property exactly under the condition, a sequence does. -/
theorem forall_states_iff (hc : ∀ s call,good s → (good (apply s call) ↔ safe s call)) (h : good s) (calls : List C) :
    (∀ t∈states apply s calls,good t) ↔ Along apply safe s calls := by
  induction calls generalizing s with
  | nil => exact iff_of_true (forall_mem_singleton.mpr h) trivial
  | cons call calls ih =>
    rw [states,forall_mem_cons,and_iff_right h,Along,← hc s call h]
    constructor
    · intro ha
      have hn := ha _ (mem_states_self calls)
      exact ⟨hn,(ih hn).mp ha⟩
    · rintro ⟨hn,hr⟩
      exact (ih hn).mpr hr

end

structure Pool (σ : Type) (Op : Type) (Res : Op → Type) (α : Type) where
  state : σ
  tasks : List (Prog Op Res α)

/-- One step: a program is called, a task performs its next operation, which has to be allowed, or returns. -/
inductive Step (S : Store σ Op Res) (programs : Set (Prog Op Res α)) (allowed : σ → Op → Prop) :
    Pool σ Op Res α → Pool σ Op Res α → Prop where
  | call (s tasks) {p : Prog Op Res α} (h : p∈programs) : Step S programs allowed ⟨s,tasks⟩ ⟨s,p::tasks⟩
  | act {s : σ} {o : Op} (before after) (next : Res o → Prog Op Res α) (henabled : S.enabled s o)
      (hallowed : allowed s o) :
    Step S programs allowed ⟨s,before ++ .op o next::after⟩ ⟨(S.exec s o).2,before++next (S.exec s o).1::after⟩
  | done (s before after) (a : α) : Step S programs allowed ⟨s,before ++ .pure a::after⟩ ⟨s,before++after⟩

abbrev Run (S : Store σ Op Res) (programs : Set (Prog Op Res α)) (allowed : σ → Op → Prop) :=
  Relation.ReflTransGen (Step S programs allowed)

section

/-- Every operation of the program is possible and allowed if the program runs alone. -/
def Permits (S : Store σ Op Res) (allowed : σ → Op → Prop) : Prog Op Res α → σ → Prop
  | .pure _, _ => True
  | .op o next, s => (S.enabled s o=true ∧ allowed s o) ∧ Permits S allowed (next (S.exec s o).1) (S.exec s o).2

variable {S : Store σ Op Res} {allowed : σ → Op → Prop} {p : Prog Op Res α} {s : σ}

instance Permits.decidable [∀ s o,Decidable (allowed s o)] :
    (p : Prog Op Res α) → (s : σ) → Decidable (Permits S allowed p s)
  | .pure _, _ => isTrue trivial
  | .op o next, s => @instDecidableAnd _ _ _ (Permits.decidable (next (S.exec s o).1) (S.exec s o).2)

theorem permits_always (henabled : ∀ s o,S.enabled s o=true) (p : Prog Op Res α) (s : σ) :
    Permits S (fun _ _ => True) p s := by
  induction p generalizing s with
  | pure a => exact trivial
  | op o next ih => exact ⟨⟨henabled s o,trivial⟩,ih _ _⟩

theorem run_runAlone {programs : Set (Prog Op Res α)} (hp : p∈programs) (h : Permits S allowed p s) :
    Run S programs allowed ⟨s,[]⟩ ⟨(S.runAlone p s).2,[]⟩ := by
  refine .head (.call s [] hp) ?_
  clear hp
  induction p generalizing s with
  | pure a => exact .single (.done s [] [] a)
  | op o next ih =>
    have ha : Step S programs allowed ⟨s,[.op o next]⟩ ⟨(S.exec s o).2,[next (S.exec s o).1]⟩ :=
      .act [] [] next h.1.1 h.1.2
    exact .head ha (ih _ h.2)

end

/-- What happens next: a program is called, or a task moves on. -/
inductive Move (Op : Type) (Res : Op → Type) (α : Type) where
  | call (p : Prog Op Res α)
  | step (i : Nat)

def play (S : Store σ Op Res) (P : Pool σ Op Res α) : List (Move Op Res α) → Option (Pool σ Op Res α)
  | [] => some P
  | .call p::moves => play S ⟨P.state,p::P.tasks⟩ moves
  | .step i::moves =>
    match P.tasks.drop i with
    | [] => none
    | .pure _::after => play S ⟨P.state,P.tasks.take i++after⟩ moves
    | .op o next::after =>
      if S.enabled P.state o then play S ⟨(S.exec P.state o).2,P.tasks.take i++next (S.exec P.state o).1::after⟩
        moves else none

theorem run_of_play {S : Store σ Op Res} {allowed : σ → Op → Prop} (check : σ → Op → Bool)
    (hch : ∀ s o,check s o=true → allowed s o)
    {programs : Set (Prog Op Res α)} {P P' : Pool σ Op Res α} {moves : List (Move Op Res α)}
    (hc : ∀ p,.call p∈moves → p∈programs)
    (h : play { S with enabled := fun s o => check s o && S.enabled s o } P moves=some P') :
    Run S programs allowed P P' := by
  induction moves generalizing P with
  | nil =>
    cases h
    exact .refl
  | cons move moves ih =>
    have hr : ∀ p,.call p∈moves → p∈programs := fun p hp => hc p (mem_cons_of_mem _ hp)
    cases move with
    | call p => exact .head (.call P.state P.tasks (hc p mem_cons_self)) (ih hr h)
    | step i =>
      have ht := take_append_drop i P.tasks
      rw [play] at h
      split at h
      · cases h
      · rename_i a after hd
        rw [hd] at ht
        have hs : Step S programs allowed ⟨P.state,P.tasks.take i ++ .pure a::after⟩ ⟨P.state,P.tasks.take i++after⟩ :=
          .done P.state (P.tasks.take i) after a
        rw [ht] at hs
        exact .head hs (ih hr h)
      · rename_i o next after hd
        rw [hd] at ht
        split at h
        · rename_i henabled
          obtain ⟨hallowed,henabled⟩ := Bool.and_eq_true_iff.mp henabled
          have hs : Step S programs allowed ⟨P.state,P.tasks.take i ++ .op o next::after⟩
              ⟨(S.exec P.state o).2,P.tasks.take i++next (S.exec P.state o).1::after⟩ :=
            .act (P.tasks.take i) after next henabled (hch _ _ hallowed)
          rw [ht] at hs
          exact .head hs (ih hr h)
        · cases h

section

/-- A step of a run whose calls do not overlap: each is made while no other is running, and meets a condition
then. -/
structure SerialStep (S : Store σ Op Res) (programs : Set (Prog Op Res α)) (meets : σ → Prog Op Res α → Prop)
    (P P' : Pool σ Op Res α) : Prop where
  step : Step S programs (fun _ _ => True) P P'
  alone : ∀ p,P'.tasks=p::P.tasks → P.tasks=[] ∧ meets P.state p

abbrev SerialRun (S : Store σ Op Res) (programs : Set (Prog Op Res α)) (meets : σ → Prog Op Res α → Prop) :=
  Relation.ReflTransGen (SerialStep S programs meets)

variable (S : Store σ Op Res) (Inv good : σ → Prop)

/-- Run alone, the program keeps `Inv` and returns in a good state. -/
def Restores : Prog Op Res α → σ → Prop
  | .pure _, s => good s
  | .op o next, s => Inv s ∧ Restores (next (S.exec s o).1) (S.exec s o).2

variable {S Inv good} {programs : Set (Prog Op Res α)} {meets : σ → Prog Op Res α → Prop} {P P' : Pool σ Op Res α}
  {p : Prog Op Res α} {s : σ}

theorem restores_perform {o : Op} {f : Res o → Prog Op Res α} : Restores S Inv good (Prog.perform o >>= f) s ↔
    Inv s ∧ Restores S Inv good (f (S.exec s o).1) (S.exec s o).2 := Iff.rfl

/-- What a pool without overlapping calls keeps: it is idle in a good state, or one task is on its way to one. -/
def Serves (S : Store σ Op Res) (Inv good : σ → Prop) (P : Pool σ Op Res α) : Prop :=
  P.tasks=[] ∧ good P.state ∨ ∃ t,P.tasks=[t] ∧ Restores S Inv good t P.state

theorem SerialStep.serves (hc : ∀ s p,good s → p∈programs → meets s p → Restores S Inv good p s)
    (hs : SerialStep S programs meets P P') (h : Serves S Inv good P) : Serves S Inv good P' := by
  obtain ⟨hs,ha⟩ := hs
  have ho {before after : List (Prog Op Res α)} {s : σ} {t : Prog Op Res α}
      (h : Serves S Inv good ⟨s,before++t::after⟩) : before=[] ∧ after=[] ∧ Restores S Inv good t s := by
    obtain ⟨hn,-⟩ | ⟨u,hta,hu⟩ := h
    · cases append_eq_nil_iff.mp hn |>.2
    · obtain ⟨rfl,hu'⟩ | ⟨-,hn⟩ := append_eq_singleton_iff.mp hta
      · cases hu'
        exact ⟨rfl,rfl,hu⟩
      · cases hn
  cases hs with
  | call s tasks hp =>
    obtain ⟨hi,hm⟩ := ha _ rfl
    obtain ⟨-,hg⟩ | ⟨t,hta,-⟩ := h
    · exact .inr ⟨_,congrArg _ hi,hc _ _ hg hp hm⟩
    · cases hi.symm.trans hta
  | act before after next _ _ =>
    obtain ⟨rfl,rfl,ht⟩ := ho h
    exact .inr ⟨_,rfl,ht.2⟩
  | done s before after a =>
    obtain ⟨rfl,rfl,ht⟩ := ho h
    exact .inl ⟨rfl,ht⟩

theorem SerialRun.restored (hg : ∀ s,good s → Inv s)
    (hc : ∀ s p,good s → p∈programs → meets s p → Restores S Inv good p s)
    (hr : SerialRun S programs meets ⟨s,[]⟩ P) (h : good s) : Inv P.state ∧ (P.tasks=[] → good P.state) := by
  have hse : Serves S Inv good P := by
    induction hr with
    | refl => exact .inl ⟨rfl,h⟩
    | tail _ hst ih => exact hst.serves hc ih
  obtain ⟨-,hs⟩ | ⟨t,hta,ht⟩ := hse
  · exact ⟨hg _ hs,fun _ => hs⟩
  · refine ⟨?_,fun hi => nomatch hi.symm.trans hta⟩
    cases t with
    | pure a => exact hg _ ht
    | op o next => exact ht.1

theorem serialRun_runAlone (hp : p∈programs) (hm : meets s p) (h : Permits S (fun _ _ => True) p s) :
    SerialRun S programs meets ⟨s,[]⟩ ⟨(S.runAlone p s).2,[]⟩ := by
  refine .head ⟨.call s [] hp,fun q hq => ⟨rfl,(cons.inj hq).1 ▸ hm⟩⟩ ?_
  clear hp hm
  induction p generalizing s with
  | pure a => exact .single ⟨.done s [] [] a,nofun⟩
  | op o next ih => exact .head ⟨.act [] [] next h.1.1 trivial,nofun⟩ (ih _ h.2)

end

end RolodexDns.SharedStores
